import Memflux.Lib.Simulation

/-! # Heaps of blocks

What the clients of an allocator may rely on: a heap is a partial map from
addresses to blocks of bytes that do not overlap. An allocation adds a block at an
address where none begins, a resize moves one and keeps the bytes that fit, a
release removes one, and nothing else changes. `Step` is the relation, with the
address that a call returned.
-/

namespace Heaps

open Simulation

variable {β : Type}

/-- The live blocks: where each begins, and its bytes. -/
structure Heap (β : Type) where
  cells : Nat → Option (List β)
  apart : ∀ {p q : Nat} {d e : List β}, cells p = some d → cells q = some e → p ≠ q →
    p + d.length ≤ q ∨ q + e.length ≤ p

def Heap.empty : Heap β := ⟨fun _ => none, fun h => nomatch h⟩

/-- The requests, with the alignment asked for. `store f` gives every byte of every
block its value under `f`; `skip` is any other step of the system. -/
inductive Act (β : Type) where
  | alloc (align size : Nat)
  | zeroed (align size : Nat)
  | resize (align p size : Nat)
  | release (p : Nat)
  | store (f : Nat → β)
  | skip

/-- The bytes of a block of `n` bytes at `p`, when the memory is `f`. -/
def bytes (f : Nat → β) (p n : Nat) : List β := (List.range n).map fun j => f (p + j)

@[simp] theorem length_bytes (f : Nat → β) (p n : Nat) : (bytes f p n).length = n := by
  simp [bytes]

theorem bytes_congr {f g : Nat → β} {p n : Nat} (h : ∀ j, j < n → f (p + j) = g (p + j)) :
    bytes f p n = bytes g p n :=
  List.map_congr_left fun j hj => h j (List.mem_range.mp hj)

/-- The first bytes of two blocks are alike if they are alike one by one. -/
theorem take_bytes {f g : Nat → β} {p q m n k : Nat} (hm : k ≤ m) (hn : k ≤ n)
    (h : ∀ j, j < k → g (q + j) = f (p + j)) : (bytes g q n).take k = (bytes f p m).take k := by
  have htake : ∀ (f : Nat → β) (p n : Nat), k ≤ n → (bytes f p n).take k = bytes f p k := by
    intro f p n hk
    simp only [bytes, ← List.map_take, List.take_range, Nat.min_eq_left hk]
  rw [htake g q n hn, htake f p m hm]
  exact List.map_congr_left fun j hj => h j (List.mem_range.mp hj)

/-- The calls that may return null and leave everything as it is. -/
def Act.MayFail : Act β → Prop
  | .alloc _ _ => True
  | .zeroed _ _ => True
  | .resize _ _ _ => True
  | _ => False

inductive Step (zero : β) : Heap β → Act β × Option Nat → Heap β → Prop where
  | failed {H : Heap β} {a : Act β} (may : a.MayFail) : Step zero H (a, none) H
  | allocated {H H' : Heap β} {align p : Nat} {d : List β} (fresh : H.cells p = none)
      (aligned : align ∣ p) (result : H'.cells = Function.update H.cells p (some d)) :
        Step zero H (.alloc align d.length, some p) H'
  | zeroed {H H' : Heap β} {align n p : Nat} (fresh : H.cells p = none) (aligned : align ∣ p)
      (result : H'.cells = Function.update H.cells p (some (List.replicate n zero))) :
        Step zero H (.zeroed align n, some p) H'
  | resized {H H' : Heap β} {align p q : Nat} {d e : List β} (live : H.cells p = some d)
      (fresh : q = p ∨ H.cells q = none) (aligned : align ∣ q)
      (kept : e.take (min d.length e.length) = d.take (min d.length e.length))
      (result : H'.cells = Function.update (Function.update H.cells p none) q (some e)) :
        Step zero H (.resize align p e.length, some q) H'
  | emptied {H H' : Heap β} {align p : Nat} {d : List β} (live : H.cells p = some d)
      (result : H'.cells = Function.update H.cells p none) : Step zero H (.resize align p 0, none) H'
  | released {H H' : Heap β} {p : Nat} {d : List β} (live : H.cells p = some d)
      (result : H'.cells = Function.update H.cells p none) : Step zero H (.release p, none) H'
  | stored {H H' : Heap β} {f : Nat → β}
      (result : ∀ p, H'.cells p = (H.cells p).map fun d => bytes f p d.length) :
        Step zero H (.store f, none) H'
  | skipped {H : Heap β} : Step zero H (.skip, none) H

variable {zero : β}

/-- The bytes of a block at `p` after such a request, if they were `d`. -/
def Act.after (p : Nat) (d : List β) : Act β → List β
  | .store f => bytes f p d.length
  | _ => d

/-- The block `d` at `p` is what the request asked for. -/
def Act.Meets (zero : β) (p : Nat) (d : List β) : Act β → Prop
  | .alloc align size => align ∣ p ∧ d.length = size
  | .zeroed align size => align ∣ p ∧ d = List.replicate size zero
  | .resize align _ size => align ∣ p ∧ d.length = size
  | _ => False

theorem Step.returned {H H' : Heap β} {a : Act β} {p : Nat} (h : Step zero H (a, some p) H') :
    ∃ d, H'.cells p = some d ∧ a.Meets zero p d := by
  cases h with
  | allocated fresh aligned result => exact ⟨_, by rw [result, Function.update_self], aligned, rfl⟩
  | zeroed fresh aligned result => exact ⟨_, by rw [result, Function.update_self], aligned, rfl⟩
  | resized live fresh aligned kept result =>
      exact ⟨_, by rw [result, Function.update_self], aligned, rfl⟩

end Heaps
