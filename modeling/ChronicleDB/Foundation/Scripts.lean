import Mathlib.Logic.Relation

/-!
# Scripted runs

A run of a transition system that is given by the list of its actions.
-/

namespace ChronicleDB.Foundation

variable {S A : Type*} {step : S → A → Option S} {R : S → S → Prop}

theorem reflTransGen_of_foldlM {acts : List A}
    (hR : ∀ a ∈ acts, ∀ s s', step s a = some s' → R s s')
    {s s' : S} (h : acts.foldlM step s = some s') : Relation.ReflTransGen R s s' := by
  induction acts generalizing s with
  | nil =>
    cases h
    exact .refl
  | cons a acts ih =>
    rw [List.foldlM_cons] at h
    obtain ⟨mid, hstep, hrest⟩ := Option.bind_eq_some_iff.mp h
    exact .head (hR a (by simp) s mid hstep)
      (ih (fun b hb => hR b (List.mem_cons_of_mem a hb)) hrest)

theorem exists_of_foldlM_any {acts : List A}
    (hR : ∀ a ∈ acts, ∀ s s', step s a = some s' → R s s') {s : S} {test : S → Bool}
    (h : (acts.foldlM step s).any test = true) :
    ∃ s', Relation.ReflTransGen R s s' ∧ test s' = true := by
  cases hrun : acts.foldlM step s with
  | none => simp [hrun] at h
  | some s' => exact ⟨s', reflTransGen_of_foldlM hR hrun, by simpa [hrun] using h⟩

theorem toOption_eq_some {ε α : Type} {x : Except ε α} {a : α} (h : x.toOption = some a) :
    x = .ok a := by
  cases x with
  | error e => cases h
  | ok b =>
    cases h
    rfl

end ChronicleDB.Foundation
