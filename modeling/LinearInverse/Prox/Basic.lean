import LinearInverse.Cplx
import LinearInverse.Vec

namespace LinearInverse

/-- A map that takes `v` to the minimiser of `g(x) + ‖x - v‖² / (2μ)`. `apply mu dst src` is the new
content of a buffer with content `dst`. The maps of this library overwrite all of a buffer that is
as long as the source; what lies beyond the source stays. -/
structure ProxOperator (α : Type) where
  apply : α → List α → List α → Checked α (List α)
  length_apply : apply mu dst src = .ok out → out.length = dst.length

namespace ProxOperator
variable {α : Type}

/-- Puts new entries over the front of a buffer. -/
def overwrite (dst new : List α) : List α :=
  new.take dst.length ++ dst.drop new.length

theorem length_overwrite (dst new : List α) : (overwrite dst new).length = dst.length := by
  simp only [overwrite,List.length_append,List.length_take,List.length_drop]
  omega

/-- A map of the step and the source that never fails. -/
def ofMap (f : α → List α → List α) : ProxOperator α where
  apply mu dst src := .ok (overwrite dst (f mu src))
  length_apply h := by cases h; exact length_overwrite _ _

theorem apply_ofMap {f : α → List α → List α} {mu : α} {dst src : List α}
    (h : (f mu src).length = dst.length) : (ofMap f).apply mu dst src = .ok (f mu src) := by
  change Except.ok (overwrite dst (f mu src)) = _
  rw [overwrite,← h,List.take_length,h,List.drop_length,List.append_nil]

variable [Scalar α]

/-- `g(x) = w ‖x‖² / 2`. -/
def ridge (w : α) : ProxOperator α :=
  ofMap fun mu src => src.map fun v => v / (1 + w * mu)

/-- `g` is zero between the bounds and infinite elsewhere. -/
def box (low high : α) : ProxOperator α :=
  ofMap fun _ src => src.map fun v => if v < low then low else if high < v then high else v

/-- Balances `‖x - b‖² / 2` against `μ ‖x - src‖² / 2`: the image update for data that measure the
image itself. -/
def average (b : List α) : ProxOperator α :=
  ofMap fun mu src => List.zipWith (fun bi v => (bi + mu * v) / (1 + mu)) b src

end ProxOperator

end LinearInverse
