import Mathlib.Data.List.Basic

/-!
# Slices and maps that can be misused

The accesses of a language whose slices are indexed by signed integers and whose
maps may be nil.  An access out of range and a write to a nil map stop the program,
as its own panics do.  A slice is cut within its length; the language allows a cut
within the capacity, which is no smaller.
-/

namespace ChronicleDB.Foundation

/-- Why a program stops: a misused slice or map, or a panic of its own. -/
inductive Stop (π : Type) where
  | outOfRange
  | nilMap
  | panic (p : π)
  deriving DecidableEq, Repr

abbrev Checked (π : Type) := Except (Stop π)

namespace Checked

variable {π α β μ : Type}

def element (xs : List α) (i : Int) : Checked π α :=
  if i < 0 then .error .outOfRange
  else match xs[i.toNat]? with
    | some x => .ok x
    | none => .error .outOfRange

def cut (xs : List α) (lo hi : Int) : Checked π (List α) :=
  if 0 ≤ lo ∧ lo ≤ hi ∧ hi ≤ xs.length then .ok ((xs.take hi.toNat).drop lo.toNat)
  else .error .outOfRange

def write (m : Option μ) (f : μ → μ) : Checked π (Option μ) :=
  match m with
  | some m => .ok (some (f m))
  | none => .error .nilMap

/-- `x` panics where `y` does, and otherwise misuses nothing and gives a result that `R`
relates to that of `y`. -/
def Refines (R : α → β → Prop) (x : Checked π α) : Except π β → Prop
  | .ok b => ∃ a, x = .ok a ∧ R a b
  | .error p => x = .error (.panic p)

@[simp] theorem ok_bind (a : α) (f : α → Checked π β) : (Except.ok a >>= f) = f a := rfl

theorem Refines.bind {γ δ : Type} {R : α → β → Prop} {S : γ → δ → Prop} {x : Checked π α}
    {y : Except π β} {f : α → Checked π γ} {g : β → Except π δ} (h : Refines R x y)
    (hf : ∀ a b, y = .ok b → R a b → Refines S (f a) (g b)) : Refines S (x >>= f) (y >>= g) := by
  cases y with
  | error p =>
    rw [Refines] at h
    rw [h]
    exact rfl
  | ok b =>
    obtain ⟨a, rfl, hab⟩ := h
    exact hf a b rfl hab

theorem Refines.andThen {γ δ : Type} {R : α → β → Prop} {S : γ → δ → Prop} {x : Checked π α}
    {b : β} {f : α → Checked π γ} {y : Except π δ} (h : Refines R x (.ok b))
    (hf : ∀ a, R a b → Refines S (f a) y) : Refines S (x >>= f) y := by
  obtain ⟨a, rfl, hab⟩ := h
  exact hf a hab

theorem element_of_getElem? {xs : List α} {i : Int} {x : α} (hi : 0 ≤ i)
    (h : xs[i.toNat]? = some x) : (element xs i : Checked π α) = .ok x := by
  rw [element, if_neg (by omega), h]

theorem cut_of_le {xs : List α} {lo hi : Int} (hlo : 0 ≤ lo) (hle : lo ≤ hi)
    (hhi : hi ≤ xs.length) :
    (cut xs lo hi : Checked π (List α)) = .ok ((xs.take hi.toNat).drop lo.toNat) :=
  if_pos ⟨hlo, hle, hhi⟩

theorem write_of_isSome {m : Option μ} (h : m.isSome = true) (f : μ → μ) (d : μ) :
    (write m f : Checked π (Option μ)) = .ok (some (f (m.getD d))) := by
  obtain ⟨m, rfl⟩ := Option.isSome_iff_exists.mp h
  rfl

theorem write_if {m : Option μ} (h : m.isSome = true) (p : Prop) [Decidable p] (f : μ → μ)
    (d : μ) :
    (if p then write m f else .ok m : Checked π (Option μ)) =
      .ok (some (if p then f (m.getD d) else m.getD d)) := by
  obtain ⟨m, rfl⟩ := Option.isSome_iff_exists.mp h
  split <;> rfl

theorem mapM_eq_ok {f : α → Checked π β} {g : α → β} {xs : List α}
    (h : ∀ x ∈ xs, f x = .ok (g x)) : xs.mapM f = .ok (xs.map g) := by
  induction xs with
  | nil => rfl
  | cons x xs ih =>
    rw [List.mapM_cons, h x List.mem_cons_self, ok_bind,
      ih fun y hy => h y (List.mem_cons_of_mem x hy)]
    rfl

end Checked

end ChronicleDB.Foundation
