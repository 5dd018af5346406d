import LinearInverse.Algorithm
import LinearInverse.Decimal.Text
import LinearInverse.Text.Record

namespace LinearInverse

/-- A broken calling contract. It ends the computation that it occurs in. -/
inductive Defect (α : Type) where
  | lengthMismatch
  | oddLength
  /-- A number of elements or bytes that does not fit a machine word. -/
  | sizeOverflow
  | notBroadcastable
  | notPermutation
  | outOfRange
  | systemLengths
  | truthLength
  | transformDomain
  | termLists
  | bufferLength (dims : List Nat)
  | operatorDimensions (dims : List Nat)
  | samplingInput
  | samplingOutput
  | thresholdLengths
  | projectionLengths
  | supportMask
  | dataMask
  | maskAndData
  | wrongSettings (entry found : Algorithm)
  | takesNoTerms (algorithm : Algorithm)
  | takesNoProx (algorithm : Algorithm)
  | takesNoTransforms (algorithm : Algorithm)
  | takesNoNormal (algorithm : Algorithm)
  | takesNoData (algorithm : Algorithm)
  | takesOneTerm (algorithm : Algorithm)
  | takesAtMostOneTerm (algorithm : Algorithm)
  | transformPerTerm (algorithm : Algorithm)
  | needsNormal (algorithm : Algorithm)
  | needsData (algorithm : Algorithm)
  | continuation (algorithm : Algorithm) (value : α)
  deriving DecidableEq

/-- A computation that a defect can end. -/
abbrev Checked (α : Type) := Except (Defect α)

namespace Checked

theorem bind_eq_ok {x : Checked α β} {f : β → Checked α γ} {r : γ} :
    (x >>= f) = .ok r ↔ ∃ a, x = .ok a ∧ f a = .ok r := by
  cases x <;> simp [bind,Except.bind]

theorem map_eq_ok {x : Checked α β} {f : β → γ} {r : γ} :
    x.map f = .ok r ↔ ∃ a, x = .ok a ∧ f a = r := by
  cases x <;> simp [Except.map]

theorem bind_map (x : Checked α β) (f : β → γ) (g : γ → Checked α δ) :
    x.map f >>= g = x >>= fun a => g (f a) := by
  cases x <;> rfl

theorem map_bind (x : Checked α β) (f : β → Checked α γ) (g : γ → δ) :
    (x >>= f).map g = x >>= fun a => (f a).map g := by
  cases x <;> rfl

theorem map_map (x : Checked α β) (f : β → γ) (g : γ → δ) :
    (x.map f).map g = x.map fun a => g (f a) := by
  cases x <;> rfl

/-- Behind a computation only what it returns matters. -/
theorem bind_congr {x : Checked α β} {f g : β → Checked α γ} (h : ∀ a, x = .ok a → f a = g a) :
    x >>= f = x >>= g := by
  cases x with
  | error d => rfl
  | ok a => exact h a rfl

/-- A computation behind a check succeeds if nothing is found and it succeeds itself. -/
theorem unless_eq_ok {p : Prop} [Decidable p] {d : Defect α} {x : Checked α β} {r : β} :
    (if p then .error d else x) = .ok r ↔ ¬p ∧ x = .ok r := by
  split <;> simp_all

theorem length_mapM {f : β → Checked α γ} {xs : List β} (h : xs.mapM f = .ok ys) :
    ys.length = xs.length := by
  induction xs generalizing ys with
  | nil => cases h; rfl
  | cons x xs ih =>
    rw [List.mapM_cons] at h
    obtain ⟨y,_,h⟩ := bind_eq_ok.mp h
    obtain ⟨zs,hs,h⟩ := bind_eq_ok.mp h
    cases h
    simp [ih hs]

theorem exists_of_mem_mapM {f : β → Checked α γ} {xs : List β} (h : xs.mapM f = .ok ys)
    (hy : y ∈ ys) : ∃ x ∈ xs, f x = .ok y := by
  induction xs generalizing ys with
  | nil => cases h; cases hy
  | cons x xs ih =>
    rw [List.mapM_cons] at h
    obtain ⟨z,hz,h⟩ := bind_eq_ok.mp h
    obtain ⟨zs,hs,h⟩ := bind_eq_ok.mp h
    cases h
    rcases List.mem_cons.mp hy with rfl | hy
    · exact ⟨x,List.mem_cons_self,hz⟩
    · obtain ⟨w,hw,hf⟩ := ih hs hy
      exact ⟨w,List.mem_cons_of_mem x hw,hf⟩

end Checked

/-- A caller's own iteration is called directly. -/
def Algorithm.title : Algorithm → String
  | call => "direct call"
  | a => a.name

def Algorithm.entryName : Algorithm → String
  | call => "iter2_call_iter"
  | a => "iter2_" ++ a.name

/-- Defects of plain sizes and indices have no text of their own. -/
def Defect.message? : Defect Float → Option String
  | lengthMismatch => none
  | oddLength => none
  | sizeOverflow => none
  | notBroadcastable => none
  | notPermutation => none
  | outOfRange => none
  | systemLengths => some "image and right-hand side differ in length"
  | truthLength => some "truth length does not match image length"
  | transformDomain => some "transform domain does not match image length"
  | termLists => some "transform and proximal operator lists must have equal length"
  | bufferLength dims =>
    some ("buffer length does not match operator dimensions " ++ Text.sizes dims)
  | operatorDimensions dims => some ("invalid operator dimensions " ++ Text.sizes dims)
  | samplingInput => some "sampling input has wrong dimensions"
  | samplingOutput => some "sampling output has wrong dimensions"
  | thresholdLengths => some "soft thresholding buffers differ in length"
  | projectionLengths => some "projection buffers differ in length"
  | supportMask => some "support mask does not match vector length"
  | dataMask => some "data mask does not match vector length"
  | maskAndData => some "mask and data must have equal length"
  | wrongSettings entry found =>
    some (entry.entryName ++ " called with a " ++ found.name ++ " configuration")
  | takesNoTerms a => some (a.title ++ " takes no regularization terms")
  | takesNoProx a => some (a.title ++ " takes no proximal operators")
  | takesNoTransforms a => some (a.title ++ " takes no transform operators")
  | takesNoNormal a => some (a.title ++ " takes no normal-equation operator")
  | takesNoData a => some (a.title ++ " takes no adjoint data")
  | takesOneTerm a => some (a.title ++ " takes exactly one regularization term")
  | takesAtMostOneTerm a => some (a.title ++ " takes at most one regularization term")
  | transformPerTerm a =>
    some (a.title ++ " requires one transform operator per regularization term")
  | needsNormal a => some (a.title ++ " requires a normal-equation operator")
  | needsData a => some (a.title ++ " requires adjoint data")
  | continuation a v =>
    some (a.title ++ ": continuation " ++ Decimal.write Decimal.message v ++ " outside [0, 1]")

end LinearInverse
