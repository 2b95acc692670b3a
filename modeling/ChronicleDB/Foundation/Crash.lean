import Mathlib.Data.List.Basic

/-!
# Crash images of a sequence of effects

A program changes a store by effects that each happen or do not happen.  When
it stops in the middle, the store is what the effects so far have made of it:
one of the images of the sequence, its first and its last state included.
-/

namespace ChronicleDB.Foundation

open List

variable {σ ω : Type}

def perform (apply : σ → ω → σ) (s : σ) (ops : List ω) : σ := ops.foldl apply s

/-- Every store a stop during `ops` can leave behind. -/
def crashImages (apply : σ → ω → σ) (s : σ) (ops : List ω) : List σ :=
  ops.scanl apply s

variable {apply : σ → ω → σ} {s t : σ} {op : ω} {ops ops₁ ops₂ : List ω}

@[simp] theorem perform_nil : perform apply s [] = s := rfl

@[simp] theorem perform_cons :
    perform apply s (op :: ops) = perform apply (apply s op) ops := rfl

theorem perform_append :
    perform apply s (ops₁ ++ ops₂) = perform apply (perform apply s ops₁) ops₂ := by
  simp [perform]

@[simp] theorem crashImages_nil : crashImages apply s [] = [s] := rfl

@[simp] theorem crashImages_cons :
    crashImages apply s (op :: ops) = s :: crashImages apply (apply s op) ops := by
  simp [crashImages]

theorem start_mem_crashImages : s ∈ crashImages apply s ops := by
  cases ops <;> simp

theorem perform_mem_crashImages : perform apply s ops ∈ crashImages apply s ops := by
  induction ops generalizing s with
  | nil => simp
  | cons op ops ih =>
    rw [perform_cons, crashImages_cons]
    exact mem_cons_of_mem s ih

theorem mem_crashImages_append :
    t ∈ crashImages apply s (ops₁ ++ ops₂) ↔
      t ∈ crashImages apply s ops₁ ∨ t ∈ crashImages apply (perform apply s ops₁) ops₂ := by
  induction ops₁ generalizing s with
  | nil =>
    rw [nil_append, crashImages_nil, perform_nil, mem_singleton]
    constructor
    · exact Or.inr
    · rintro (rfl | h)
      · exact start_mem_crashImages
      · exact h
  | cons op ops₁ ih =>
    rw [cons_append, crashImages_cons, crashImages_cons, perform_cons,
      mem_cons, mem_cons, ih, or_assoc]

section Embedding

variable {τ ω' : Type} {apply' : τ → ω' → τ} {f : ω → ω'} {g : σ → τ} {u : τ}

theorem perform_map (h : ∀ s op, apply' (g s) (f op) = g (apply s op)) :
    perform apply' (g s) (ops.map f) = g (perform apply s ops) := by
  induction ops generalizing s with
  | nil => rfl
  | cons op ops ih => rw [map_cons, perform_cons, perform_cons, h, ih]

theorem mem_crashImages_map (h : ∀ s op, apply' (g s) (f op) = g (apply s op)) :
    u ∈ crashImages apply' (g s) (ops.map f) ↔ ∃ t ∈ crashImages apply s ops, g t = u := by
  induction ops generalizing s with
  | nil => simp [eq_comm]
  | cons op ops ih =>
    rw [map_cons, crashImages_cons, crashImages_cons, mem_cons, h, ih]
    simp [eq_comm]

end Embedding

end ChronicleDB.Foundation
