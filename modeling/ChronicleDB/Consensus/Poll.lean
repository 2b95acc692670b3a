import ChronicleDB.Consensus.Quorum
import Mathlib.Data.Set.Insert
import Mathlib.Logic.Function.Basic

/-!
# Votes that are stored

Every voter stores a term and the vote it has given in that term, if any.  A vote is
cast when what the voter has stored says so, and what it stores later must not take it
back.  Then a voter has cast at most one vote a term, and a term has at most one winner.
-/

namespace ChronicleDB.Consensus

variable {N : Type}

structure Stub (N : Type) where
  term : Nat
  vote : N

namespace Stub

/-- The vote for `n` in term `t` is stored, or the term is over. -/
def Binds (b : Stub N) (t : Nat) (n : N) : Prop := t < b.term ∨ t = b.term ∧ b.vote = n

/-- `new` may be stored in the place of `old`; `nobody` stands for no vote. -/
def Follows (nobody : N) (old new : Stub N) : Prop :=
  old.term < new.term ∨ old.term = new.term ∧ (new.vote = old.vote ∨ old.vote = nobody)

theorem Binds.follows {nobody n : N} {old new : Stub N} {t : Nat} (h : old.Binds t n)
    (hn : n ≠ nobody) (hnew : old.Follows nobody new) : new.Binds t n := by
  rcases h with h | ⟨rfl, hvote⟩
  · rcases hnew with hlt | ⟨heq, -⟩
    · exact .inl (h.trans hlt)
    · exact .inl (heq ▸ h)
  · rcases hnew with hlt | ⟨heq, hsame | hnobody⟩
    · exact .inl hlt
    · exact .inr ⟨heq, hsame.trans hvote⟩
    · exact absurd (hvote.symm.trans hnobody) hn

end Stub

/-- The votes (voter, term, candidate) that were ever cast, and what is stored now. -/
structure Poll (nobody : N) (V : Finset N) (stubs : N → Stub N) (votes : Set (N × Nat × N)) :
    Prop where
  voter : ∀ u t n, (u, t, n) ∈ votes → u ∈ V
  named : ∀ u t n, (u, t, n) ∈ votes → n ≠ nobody
  binds : ∀ u t n, (u, t, n) ∈ votes → (stubs u).Binds t n
  unique : ∀ u t n m, (u, t, n) ∈ votes → (u, t, m) ∈ votes → n = m

/-- A majority has voted for `n`, or there is no other voter. -/
def Elected (V : Finset N) (votes : Set (N × Nat × N)) (n : N) (t : Nat) : Prop :=
  n ∈ V ∧ (V = {n} ∨ ∃ Q, Majority V Q ∧ ∀ u ∈ Q, (u, t, n) ∈ votes)

theorem Elected.mono {V : Finset N} {votes votes' : Set (N × Nat × N)} {n : N} {t : Nat}
    (h : Elected V votes n t) (hsub : votes ⊆ votes') : Elected V votes' n t := by
  obtain ⟨hn, halone | ⟨Q, hQ, hvotes⟩⟩ := h
  · exact ⟨hn, .inl halone⟩
  · exact ⟨hn, .inr ⟨Q, hQ, fun u hu => hsub (hvotes u hu)⟩⟩

namespace Poll

variable {nobody : N} {V : Finset N} {stubs : N → Stub N} {votes : Set (N × Nat × N)}

theorem empty : Poll nobody V stubs ∅ :=
  ⟨by simp, by simp, by simp, by simp⟩

theorem store [DecidableEq N] (h : Poll nobody V stubs votes) {u : N} {b : Stub N}
    (hb : (stubs u).Follows nobody b) : Poll nobody V (Function.update stubs u b) votes := by
  refine ⟨h.voter, h.named, fun v t n hv => ?_, h.unique⟩
  by_cases hvu : v = u
  · subst hvu
    rw [Function.update_self]
    exact (h.binds v t n hv).follows (h.named v t n hv) hb
  · rw [Function.update_of_ne hvu]
    exact h.binds v t n hv

theorem cast (h : Poll nobody V stubs votes) {u n : N} {t : Nat} (hu : u ∈ V) (hn : n ≠ nobody)
    (hstub : stubs u = ⟨t, n⟩) : Poll nobody V stubs (insert (u, t, n) votes) := by
  -- a vote of this term that was cast before is the stored one
  have hsame : ∀ m, (u, t, m) ∈ votes → m = n := by
    intro m hm
    rcases h.binds u t m hm with hlt | ⟨-, hvote⟩
    · rw [hstub] at hlt
      exact absurd hlt (lt_irrefl t)
    · rw [hstub] at hvote
      exact hvote.symm
  refine ⟨fun v t' m hv => ?_, fun v t' m hv => ?_, fun v t' m hv => ?_, fun v t' m m' hv hv' => ?_⟩
  · rcases hv with hv | hv
    · cases hv
      exact hu
    · exact h.voter v t' m hv
  · rcases hv with hv | hv
    · cases hv
      exact hn
    · exact h.named v t' m hv
  · rcases hv with hv | hv
    · cases hv
      exact .inr ⟨by rw [hstub], by rw [hstub]⟩
    · exact h.binds v t' m hv
  · rcases hv with hv | hv <;> rcases hv' with hv' | hv'
    · cases hv
      cases hv'
      rfl
    · cases hv
      exact (hsame m' hv').symm
    · cases hv'
      exact hsame m hv
    · exact h.unique v t' m m' hv hv'

theorem elected_unique [DecidableEq N] (h : Poll nobody V stubs votes) {n m : N} {t : Nat}
    (hn : Elected V votes n t) (hm : Elected V votes m t) : n = m := by
  obtain ⟨hnV, halone | ⟨Q, hQ, hvotes⟩⟩ := hn
  · exact (Finset.mem_singleton.mp (halone ▸ hm.1)).symm
  · obtain ⟨-, halone | ⟨Q', hQ', hvotes'⟩⟩ := hm
    · exact Finset.mem_singleton.mp (halone ▸ hnV)
    · obtain ⟨u, hu, hu'⟩ := hQ.inter hQ'
      exact h.unique u t n m (hvotes u hu) (hvotes' u hu')

end Poll

end ChronicleDB.Consensus
