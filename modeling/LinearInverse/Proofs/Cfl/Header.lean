import LinearInverse.Cfl.Header
import LinearInverse.Proofs.Text

namespace LinearInverse.Cfl.Header

/-- The sizes that a header is written with. -/
def sizes (shape : List Nat) : List Nat :=
  if shape.isEmpty then [1] else shape

theorem sizes_ne_nil (shape : List Nat) : sizes shape ≠ [] := by
  unfold sizes
  cases shape with
  | nil => exact List.cons_ne_nil 1 []
  | cons d ds => exact List.cons_ne_nil d ds

theorem le_ofDigitChars (cs : List Char) (n : Nat) : n ≤ Nat.ofDigitChars 10 cs n := by
  induction cs generalizing n with
  | nil => exact Nat.le_refl n
  | cons c cs ih =>
    rw [Nat.ofDigitChars_cons]
    exact Nat.le_trans (by omega) (ih _)

/-- The first digits of a number that fits do so as well. -/
theorem foldlM_push {token : String} {cs : List Char} {n : Nat}
    (hcs : ∀ c ∈ cs, c.isDigit = true) (h : Nat.ofDigitChars 10 cs n < Grid.wordBound) :
    cs.foldlM (push token) n = .ok (Nat.ofDigitChars 10 cs n) := by
  induction cs generalizing n with
  | nil => rfl
  | cons c cs ih =>
    have hc : c.isDigit = true := hcs c List.mem_cons_self
    rw [Nat.ofDigitChars_cons,Nat.mul_comm 10 n] at h ⊢
    have hlt := Nat.lt_of_le_of_lt (le_ofDigitChars cs _) h
    have hpush : push token n c = .ok (n * 10 + (c.toNat - '0'.toNat)) := by
      simp only [push,hc,Bool.not_true,Bool.false_eq_true,if_false,hlt,if_true]
    rw [List.foldlM_cons,hpush]
    exact ih (fun d hd => hcs d (List.mem_cons_of_mem c hd)) h

theorem size_toDigits {d : Nat} (h : d < Grid.wordBound) : size (Nat.toDigits 10 d) = .ok d := by
  have hdigits : ∀ c ∈ Nat.toDigits 10 d, c.isDigit = true :=
    fun c hc => Nat.isDigit_of_mem_toDigits (by decide) (by decide) hc
  have hvalue : Nat.ofDigitChars 10 (Nat.toDigits 10 d) 0 = d := Nat.ofDigitChars_ten_toDigits
  cases hd : Nat.toDigits 10 d with
  | nil => exact absurd hd Nat.toDigits_ne_nil
  | cons c cs =>
    rw [hd] at hdigits hvalue
    have hplus : c ≠ '+' := by
      rintro rfl
      exact absurd (hdigits '+' List.mem_cons_self) (by decide)
    have hsize : size (c :: cs) = (c :: cs).foldlM (push (String.ofList (c :: cs))) 0 := by
      unfold size
      split
      next h => exact absurd (List.cons.inj h).1 hplus
      next => rfl
    rw [hsize,foldlM_push hdigits (by rwa [hvalue]),hvalue]

theorem not_special_of_mem_toDigits {d : Nat} {c : Char} (h : c ∈ Nat.toDigits 10 d) :
    Text.isBlank c = false ∧ (c == '\n') = false ∧ (c != '#') = true := by
  obtain ⟨hlo,hhi⟩ := Char.isDigit_iff_toNat.mp
    (Nat.isDigit_of_mem_toDigits (by decide) (by decide) h)
  change 48 ≤ c.toNat at hlo
  change c.toNat ≤ 57 at hhi
  refine ⟨?_,?_,?_⟩
  · simp only [Text.isBlank,Bool.or_eq_false_iff,Bool.and_eq_false_iff,decide_eq_false_iff_not,
      beq_eq_false_iff_ne]
    omega
  · rw [beq_eq_false_iff_ne]
    rintro rfl
    exact absurd hlo (by decide)
  · rw [bne_iff_ne]
    rintro rfl
    exact absurd hlo (by decide)

/-- The sizes of a shape as digits. -/
def tokens (shape : List Nat) : List (List Char) :=
  (sizes shape).map (Nat.toDigits 10)

theorem tokens_ne_nil (shape : List Nat) : tokens shape ≠ [] := by
  intro h
  exact sizes_ne_nil shape (List.map_eq_nil_iff.mp h)

theorem mem_tokens {shape : List Nat} {t : List Char} (h : t ∈ tokens shape) :
    t ≠ [] ∧ ∀ c ∈ t, Text.isBlank c = false ∧ (c == '\n') = false ∧ (c != '#') = true := by
  obtain ⟨d,_,rfl⟩ := List.mem_map.mp h
  exact ⟨Nat.toDigits_ne_nil,fun c hc => not_special_of_mem_toDigits hc⟩

theorem sizesLine_eq (shape : List Nat) : sizesLine shape = [' '].intercalate (tokens shape) :=
  rfl

theorem words_sizesLine (shape : List Nat) : Text.words (sizesLine shape) = tokens shape := by
  have hsplit : Text.splitWhere Text.isBlank ([' '].intercalate (tokens shape)) = tokens shape :=
    Text.splitWhere_intercalate rfl (tokens_ne_nil shape)
      fun t ht c hc => ((mem_tokens ht).2 c hc).1
  rw [Text.words,sizesLine_eq,hsplit,List.filter_eq_self]
  intro t ht
  simpa using (mem_tokens ht).1

theorem not_newline_of_mem_sizesLine {shape : List Nat} {c : Char} (h : c ∈ sizesLine shape) :
    (c == '\n') = false := by
  rw [sizesLine_eq] at h
  rcases Text.mem_intercalate h with hc | ⟨t,ht,hc⟩
  · rw [List.mem_singleton.mp hc]
    rfl
  · exact ((mem_tokens ht).2 c hc).2.1

def comment : List Char := "# Dimensions".toList

theorem write_eq (shape : List Nat) :
    write shape = comment ++ ['\n'] ++ sizesLine shape ++ ['\n'] := by
  have hcomment : "# Dimensions\n".toList = comment ++ ['\n'] := by decide +kernel
  rw [← hcomment]
  rfl

theorem lines_write (shape : List Nat) :
    Text.lines (write shape) = [comment,sizesLine shape,[]] := by
  have hone : comment.all (· != '\n') = true := by decide +kernel
  have hcomment : ∀ c ∈ comment, (c == '\n') = false :=
    fun c hc => by simpa using List.all_eq_true.mp hone c hc
  have hsizes : ∀ c ∈ sizesLine shape, (c == '\n') = false :=
    fun c hc => not_newline_of_mem_sizesLine hc
  rw [write_eq,Text.lines,Text.splitWhere_eq,List.append_assoc,List.append_assoc,
    List.singleton_append,List.splitOnP_append_cons_of_forall_mem hcomment '\n' rfl,
    List.splitOnP_append_cons_of_forall_mem hsizes '\n' rfl,List.splitOnP_nil]

theorem isSizes_tokens (shape : List Nat) : isSizes (tokens shape) = true := by
  cases hts : tokens shape with
  | nil => exact absurd hts (tokens_ne_nil shape)
  | cons t ts =>
    obtain ⟨hne,ht⟩ := mem_tokens (hts ▸ List.mem_cons_self : t ∈ tokens shape)
    cases t with
    | nil => exact absurd rfl hne
    | cons c cs => exact (ht c List.mem_cons_self).2.2

theorem mapM_size {dims : List Nat} (h : ∀ d ∈ dims, d < Grid.wordBound) :
    (dims.map (Nat.toDigits 10)).mapM size = .ok dims := by
  induction dims with
  | nil => rfl
  | cons d ds ih =>
    rw [List.map_cons,List.mapM_cons,size_toDigits (h d List.mem_cons_self),
      ih fun e he => h e (List.mem_cons_of_mem d he)]
    rfl

/-- Sizes that are words are read back, without those at the end that say nothing. -/
theorem read_write {shape : List Nat} (h : ∀ d ∈ shape, d < Grid.wordBound) :
    read (write shape) = .ok (trim (sizes shape)) := by
  have hsizes : ∀ d ∈ sizes shape, d < Grid.wordBound := by
    unfold sizes
    cases shape with
    | nil => decide
    | cons d ds => exact h
  have hcomment : isSizes (Text.words comment) = false := by decide +kernel
  have hfind : ((Text.lines (write shape)).map Text.words).find? isSizes = some (tokens shape) := by
    rw [lines_write,List.map_cons,List.map_cons,words_sizesLine,List.find?_cons,hcomment,
      List.find?_cons,isSizes_tokens]
  rw [read,hfind]
  exact congrArg (Except.map trim) (mapM_size hsizes)

/-- There is an axis, and no size of one behind it is left to drop. -/
def Least (dims : List Nat) : Prop :=
  dims ≠ [] ∧ (dims.length = 1 ∨ dims.getLast? ≠ some 1)

theorem exists_trim {dims : List Nat} (h : dims ≠ []) :
    Least (trim dims) ∧ ∃ n, dims = trim dims ++ List.replicate n 1 := by
  cases dims with
  | nil => exact absurd rfl h
  | cons d ds =>
    have hsplit := List.takeWhile_append_dropWhile (p := (· == 1)) (l := ds.reverse)
    have hones : ds.reverse.takeWhile (· == 1) =
        List.replicate (ds.reverse.takeWhile (· == 1)).length 1 :=
      List.eq_replicate_iff.mpr ⟨rfl,fun x hx =>
        beq_iff_eq.mp (List.all_eq_true.mp List.all_takeWhile x hx)⟩
    have hhead := List.head?_dropWhile_not (· == 1) ds.reverse
    refine ⟨⟨List.cons_ne_nil d _,?_⟩,(ds.reverse.takeWhile (· == 1)).length,?_⟩
    · rw [trim]
      cases hd : ds.reverse.dropWhile (· == 1) with
      | nil => exact .inl rfl
      | cons x xs =>
        rw [hd] at hhead
        refine .inr fun hlast => ?_
        rw [List.reverse_cons,← List.cons_append,List.getLast?_concat] at hlast
        cases hlast
        exact Bool.noConfusion hhead
    · rw [trim,List.cons_append,← List.reverse_replicate,← hones,← List.reverse_append,hsplit,
        List.reverse_reverse]

/-- Nothing more can be dropped. -/
theorem Least.eq {ds es : List Nat} {n : Nat} (h : Least ds) (hes : es ≠ [])
    (heq : ds = es ++ List.replicate n 1) : ds = es := by
  cases n with
  | zero => rw [heq,List.replicate_zero,List.append_nil]
  | succ n =>
    rcases h.2 with hlen | hlast
    · have hpos := List.length_pos_iff.mpr hes
      rw [heq,List.length_append,List.length_replicate] at hlen
      omega
    · rw [heq,List.replicate_succ',← List.append_assoc,List.getLast?_concat] at hlast
      exact absurd rfl hlast

theorem mapM_size_ne_nil {ts : List (List Char)} (h : isSizes ts = true) :
    ts.mapM size ≠ .ok [] := by
  cases ts with
  | nil => cases h
  | cons t ts =>
    rw [List.mapM_cons]
    cases size t with
    | error e => exact nofun
    | ok d => cases ts.mapM size <;> exact nofun

theorem least_of_read {text : List Char} {dims : List Nat} (h : read text = .ok dims) :
    Least dims := by
  unfold read at h
  split at h
  next ts hts =>
    cases hm : ts.mapM size with
    | error e => rw [hm] at h; cases h
    | ok ds =>
      rw [hm] at h
      cases h
      refine (exists_trim ?_).1
      rintro rfl
      exact mapM_size_ne_nil (List.find?_some hts) hm
  next => cases h

end LinearInverse.Cfl.Header
