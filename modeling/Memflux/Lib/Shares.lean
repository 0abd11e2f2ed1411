import Mathlib.Data.List.Nodup
import Mathlib.Data.List.Perm.Basic
import Mathlib.Logic.Equiv.Basic

/-! # Sharing a set out

A family of lists shares out a set when every member of the set is in exactly one
of the lists, and there once. A new member enters at one list, a member leaves from
its list or moves to another, and whole lists change their names.
-/

namespace Sharing

variable {κ α : Type}

/-- The lists of the family hold the members of `S`, each at one place. -/
structure Shares (f : κ → List α) (S : α → Prop) : Prop where
  mem : ∀ a, S a ↔ ∃ k, a ∈ f k
  nodup : ∀ k, (f k).Nodup
  apart : ∀ k l a, a ∈ f k → a ∈ f l → k = l

theorem Shares.empty : Shares (fun _ : κ => ([] : List α)) fun _ => False where
  mem := by simp
  nodup _ := List.nodup_nil
  apart := by simp

theorem Shares.congr {f : κ → List α} {S T : α → Prop} (h : Shares f S) (hT : ∀ a, T a ↔ S a) :
    Shares f T := by
  refine ⟨?_, h.nodup, h.apart⟩
  intro a
  exact (hT a).trans (h.mem a)

theorem Shares.of_mem {f : κ → List α} {S : α → Prop} (h : Shares f S) {k : κ} {a : α}
    (ha : a ∈ f k) : S a :=
  (h.mem a).mpr ⟨k, ha⟩

theorem Shares.position {f : κ → List α} {S : α → Prop} (h : Shares f S) {k : κ} {i : Nat} {a : α}
    (ha : (f k)[i]? = some a) {l : κ} {j : Nat} (ha' : (f l)[j]? = some a) : l = k ∧ j = i := by
  have hl : l = k := h.apart l k a (List.mem_of_getElem? ha') (List.mem_of_getElem? ha)
  rw [hl] at ha'
  have hi := (List.getElem?_eq_some_iff.mp ha).choose
  refine ⟨hl, ?_⟩
  exact ((List.getElem?_inj hi (h.nodup k)).mp (ha.trans ha'.symm)).symm

theorem Shares.rename {f : κ → List α} {S : α → Prop} (h : Shares f S) (e : κ ≃ κ) :
    Shares (fun k => f (e k)) S := by
  refine ⟨?_, ?_, ?_⟩
  · intro a
    constructor
    · intro ha
      obtain ⟨k, hk⟩ := (h.mem a).mp ha
      refine ⟨e.symm k, ?_⟩
      rwa [e.apply_symm_apply]
    · intro ha
      obtain ⟨k, hk⟩ := ha
      exact h.of_mem hk
  · intro k
    exact h.nodup (e k)
  · intro k l a hk hl
    exact e.injective (h.apart (e k) (e l) a hk hl)

section Update

variable [DecidableEq κ]

theorem mem_update {f : κ → List α} {k j : κ} {l : List α} {x : α} :
    x ∈ Function.update f k l j ↔ (j = k ∧ x ∈ l) ∨ (j ≠ k ∧ x ∈ f j) := by
  by_cases hj : j = k
  · rw [hj, Function.update_self]
    simp
  · rw [Function.update_of_ne hj]
    simp [hj]

theorem Shares.enter {f : κ → List α} {S : α → Prop} (h : Shares f S) {k : κ} {a : α} {l : List α}
    (ha : ¬ S a) (hl : l.Perm (a :: f k)) : Shares (Function.update f k l) fun x => x = a ∨ S x := by
  have hout : ∀ j, a ∉ f j := fun j hj => ha (h.of_mem hj)
  refine ⟨?_, ?_, ?_⟩
  · intro x
    simp only [mem_update, hl.mem_iff, List.mem_cons]
    constructor
    · intro hx
      cases hx with
      | inl heq => exact ⟨k, .inl ⟨rfl, .inl heq⟩⟩
      | inr hx =>
          obtain ⟨j, hj⟩ := (h.mem x).mp hx
          by_cases hjk : j = k
          · rw [hjk] at hj
            exact ⟨k, .inl ⟨rfl, .inr hj⟩⟩
          · exact ⟨j, .inr ⟨hjk, hj⟩⟩
    · intro hx
      rcases hx with ⟨j, ⟨-, heq | hx⟩ | ⟨-, hx⟩⟩
      · exact .inl heq
      · exact .inr (h.of_mem hx)
      · exact .inr (h.of_mem hx)
  · intro j
    by_cases hj : j = k
    · rw [hj, Function.update_self]
      exact hl.nodup_iff.mpr (List.nodup_cons.mpr ⟨hout k, h.nodup k⟩)
    · rw [Function.update_of_ne hj]
      exact h.nodup j
  · intro i j x hi hj
    simp only [mem_update, hl.mem_iff, List.mem_cons] at hi hj
    rcases hi with ⟨hik, hi⟩ | ⟨hik, hi⟩ <;> rcases hj with ⟨hjk, hj⟩ | ⟨hjk, hj⟩
    · exact hik.trans hjk.symm
    · rcases hi with heq | hi
      · rw [heq] at hj
        exact absurd hj (hout j)
      · exact absurd (h.apart j k x hj hi) hjk
    · rcases hj with heq | hj
      · rw [heq] at hi
        exact absurd hi (hout i)
      · exact absurd (h.apart i k x hi hj) hik
    · exact h.apart i j x hi hj

theorem Shares.leave {f : κ → List α} {S : α → Prop} (h : Shares f S) {k : κ} {a : α} {l : List α}
    (hl : (f k).Perm (a :: l)) : Shares (Function.update f k l) fun x => x ≠ a ∧ S x := by
  have hnodup := List.nodup_cons.mp (hl.nodup_iff.mp (h.nodup k))
  have hmem : ∀ x, x ∈ f k ↔ x = a ∨ x ∈ l := fun x => hl.mem_iff.trans List.mem_cons
  have hsub : ∀ x, x ∈ l → x ∈ f k := fun x hx => (hmem x).mpr (.inr hx)
  have hak : a ∈ f k := (hmem a).mpr (.inl rfl)
  refine ⟨?_, ?_, ?_⟩
  · intro x
    simp only [mem_update]
    constructor
    · intro hx
      obtain ⟨j, hj⟩ := (h.mem x).mp hx.2
      by_cases hjk : j = k
      · rw [hjk] at hj
        exact ⟨k, .inl ⟨rfl, ((hmem x).mp hj).resolve_left hx.1⟩⟩
      · exact ⟨j, .inr ⟨hjk, hj⟩⟩
    · intro hx
      rcases hx with ⟨j, ⟨-, hx⟩ | ⟨hjk, hx⟩⟩
      · refine ⟨?_, h.of_mem (hsub x hx)⟩
        intro heq
        rw [heq] at hx
        exact hnodup.1 hx
      · refine ⟨?_, h.of_mem hx⟩
        intro heq
        rw [heq] at hx
        exact hjk (h.apart j k a hx hak)
  · intro j
    by_cases hj : j = k
    · rw [hj, Function.update_self]
      exact hnodup.2
    · rw [Function.update_of_ne hj]
      exact h.nodup j
  · intro i j x hi hj
    have hin : ∀ m, (m = k ∧ x ∈ l) ∨ (m ≠ k ∧ x ∈ f m) → x ∈ f m := by
      intro m hm
      rcases hm with ⟨heq, hx⟩ | ⟨-, hx⟩
      · rw [heq]
        exact hsub x hx
      · exact hx
    exact h.apart i j x (hin i (mem_update.mp hi)) (hin j (mem_update.mp hj))

theorem Shares.move {f : κ → List α} {S : α → Prop} (h : Shares f S) {k j : κ} {a : α} {l m : List α}
    (hl : (f k).Perm (a :: l)) (hm : m.Perm (a :: Function.update f k l j)) :
    Shares (Function.update (Function.update f k l) j m) S := by
  have ha : S a := h.of_mem (hl.mem_iff.mpr List.mem_cons_self)
  apply ((h.leave hl).enter (fun hx => hx.1 rfl) hm).congr
  intro x
  by_cases hx : x = a
  · simp [hx, ha]
  · simp [hx]

end Update

end Sharing
