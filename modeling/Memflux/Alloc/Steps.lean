import Memflux.Alloc.Mapping

/-! # What each critical section does

One specification for each function below the entry points: under the bookkeeping
invariant it succeeds, the resulting state is written out, and the invariant
holds again. Later modules cite these and never unfold the functions.
-/

namespace Memflux.Alloc

open Spans BitWords DList

/-! ## Mapping -/

/-- A mapping request changes the bump pointer and nothing else, or also adds one mapping. -/
theorem mapRegion_cases (s : State) (os : Os) (size align : Nat) :
    (∃ b, s.mapRegion os size align = (none, { s with resBump := b })) ∨
      ∃ a b al, s.mapRegion os size align = (some a, { s.mmap a size al with resBump := b }) := by
  unfold State.mapRegion
  split
  · unfold State.reserveMap
    dsimp only
    split
    · exact .inl ⟨_, rfl⟩
    · split
      · exact .inr ⟨_, _, _, rfl⟩
      · exact .inl ⟨_, rfl⟩
  · split
    · exact .inl ⟨s.resBump, rfl⟩
    · rename_i a _
      exact .inr ⟨a, s.resBump, 4096, rfl⟩

/-- Every mapping this request can get is fresh. -/
def GetsFresh (s : State) (os : Os) (size align : Nat) : Prop :=
  ∀ a, (s.mapRegion os size align).1 = some a → Fresh s a size

def State.withRun (s : State) (c a al b : Nat) (runs : Nat → Option Run) : State :=
  { s with
    resBump := b
    maps := ⟨a, runMap c, al⟩ :: s.maps
    runs := runs
    cls := put s.cls c { s.cls c with head := a }
    mapped := s.mapped + runMap c
    mem := (s.mmap a (runMap c) al).mem }

theorem runNew_spec {s : State} {L : Nat → List Nat} (h : Core s L) {c : Nat}
    (hc : c < kNumClasses) {os : Os} (hfresh : GetsFresh s os (runMap c) kRunSize) :
    (∃ b, s.mapRegion os (runMap c) kRunSize = (none, { s with resBump := b }) ∧
        s.runNew os (c + 1) = .ok (none, { s with resBump := b })) ∨
      ∃ a al b runs, s.runNew os (c + 1) = .ok (some a, s.withRun c a al b runs) ∧
        Fresh s a (runMap c) ∧ Core (s.withRun c a al b runs) (put L c (a :: L c)) ∧
        Relinked (put s.runs a (some (State.freshRun (c + 1) (os.now 0)))) runs (a :: L c) := by
  have hmap : pageUp (runBytes (elemsOf (c + 1 - 1)) (kSize (c + 1 - 1))) = runMap c := rfl
  unfold State.runNew
  dsimp only
  rw [hmap]
  rcases mapRegion_cases s os (runMap c) kRunSize with ⟨b, hm⟩ | ⟨a, b, al, hm⟩
  · rw [hm]
    exact .inl ⟨b, rfl, rfl⟩
  · have hf : Fresh s a (runMap c) := hfresh a (by rw [hm])
    rw [hm]
    obtain ⟨runs, hins, hcore, hrel⟩ := h.addRun
      { ({ s.mmap a (runMap c) al with resBump := b } : State).setRun a
          (State.freshRun (c + 1) (os.now 0)) with mapped := s.mapped + runMap c }
      al (os.now 0)
      hc hf (congrArg (fun f => put f a _) (h.mmap_runs hf al)) rfl (h.mmap_larges hf al) rfl
    have hstate : { ({ ({ s.mmap a (runMap c) al with resBump := b } : State).setRun a
          (State.freshRun (c + 1) (os.now 0)) with mapped := s.mapped + runMap c } : State) with
          runs := runs, cls := put s.cls c { s.cls c with head := a } } =
        s.withRun c a al b runs := by
      have hl := h.mmap_larges hf al
      simp only [State.withRun, State.setRun, State.mmap, State.fill, State.dropHeaders] at hl ⊢
      rw [hl]
    refine .inr ⟨a, al, b, runs, ?_, hf, hstate ▸ hcore, hrel⟩
    rw [← hstate]
    show (do
      let s ← State.runInsert _ (c + 1 - 1) a
      Except.ok (some a, s)) = _
    rw [show c + 1 - 1 = c from rfl]
    exact congrArg (fun r => r >>= fun s => Except.ok (some a, s)) hins

def State.withLarge (s : State) (n a al b : Nat) : State :=
  { s with
    resBump := b
    maps := ⟨a, largeMap n, al⟩ :: s.maps
    larges := put s.larges a (some ⟨kMagicLarge, largeMap n, n⟩)
    mapped := s.mapped + largeMap n
    mem := (s.mmap a (largeMap n) al).mem }

theorem mallocLarge_spec {s : State} {L : Nat → List Nat} (h : Core s L) {n : Nat} {os : Os}
    (hfresh : GetsFresh s os (largeMap n) 4096) :
    (∃ b, s.mapRegion os (largeMap n) 4096 = (none, { s with resBump := b }) ∧
        s.mallocLarge os n = (none, { s with resBump := b })) ∨
      ∃ a al b, s.mallocLarge os n = (some (a + sizeofLargeHdr), s.withLarge n a al b) ∧
        Fresh s a (largeMap n) ∧ Core (s.withLarge n a al b) L := by
  unfold State.mallocLarge
  dsimp only
  rcases mapRegion_cases s os (largeMap n) 4096 with ⟨b, hm⟩ | ⟨a, b, al, hm⟩
  · rw [hm]
    exact .inl ⟨b, rfl, rfl⟩
  · have hf : Fresh s a (largeMap n) := hfresh a (by rw [hm])
    have hr := h.mmap_runs hf al
    have hl := h.mmap_larges hf al
    rw [hm]
    refine .inr ⟨a, al, b, ?_, hf, h.addLarge hf rfl rfl rfl rfl⟩
    simp only [State.withLarge, State.setLarge, State.mmap, State.fill, State.dropHeaders] at hr hl ⊢
    rw [hr, hl]

/-! ## Taking and giving blocks -/

/-- The walk over a list stops at the first run with room, or at the end. -/
theorem firstRoom_spec {s : State} {pre last : Nat} {l : List Nat} {fuel a : Nat}
    (hs : Seg s.runs pre a l last 0) (hfuel : l.length ≤ fuel) :
    (s.firstRoom fuel a = .ok 0 ∧ ∀ x ∈ l, ∀ r, s.runs x = some r → r.used = r.elems) ∨
      ∃ x ∈ l, ∃ r, s.firstRoom fuel a = .ok x ∧ s.runs x = some r ∧ r.used ≠ r.elems := by
  induction l generalizing pre a fuel with
  | nil =>
      obtain ⟨-, rfl⟩ := hs
      exact .inl ⟨by cases fuel <;> rfl, by simp⟩
  | cons x l ih =>
      obtain ⟨rfl, h0, r, hr, -, hrest⟩ := hs
      cases fuel with
      | zero => simp at hfuel
      | succ fuel =>
          have hrun : s.run a = .ok r := by simp [State.run, hr]
          by_cases hfull : r.used = r.elems
          · have hstep : s.firstRoom (fuel + 1) a = s.firstRoom fuel r.next := by
              simp [State.firstRoom, h0, hrun, hfull, bind, Except.bind]
            rw [hstep]
            rcases ih hrest (by simpa using hfuel) with ⟨he, hall⟩ | ⟨y, hy, q, he, hq⟩
            · refine .inl ⟨he, fun y hy q hq => ?_⟩
              rcases List.mem_cons.mp hy with rfl | hy
              · rw [hr] at hq
                cases hq
                exact hfull
              · exact hall y hy q hq
            · exact .inr ⟨y, by simp [hy], q, he, hq⟩
          · refine .inr ⟨a, by simp, r, ?_, hr, hfull⟩
            simp [State.firstRoom, h0, hrun, hfull, bind, Except.bind]

def State.afterTake (s : State) (a : Nat) (r : Run) (i now : Nat) : State :=
  (s.setRun a (r.taken i now)).setCls (r.cls - 1)
    { s.cls (r.cls - 1) with liveBlocks := (s.cls (r.cls - 1)).liveBlocks + 1 }

theorem runTake_spec {s : State} {L : Nat → List Nat} (h : Core s L) {a : Nat} {r : Run}
    (hr : s.runs a = some r) (hroom : r.used ≠ r.elems) (now : Nat) :
    ∃ i, r.findFree = some i ∧
      s.runTake a now = .ok (some (blockAddr a r i), s.afterTake a r i now) ∧
      Core (s.afterTake a r i now) L := by
  have hok := h.run a r hr
  obtain ⟨i, hi⟩ := findFree_isSome hok hroom
  refine ⟨i, hi, ?_, ?_⟩
  · simp [State.runTake, State.run, hr, hi, bind, Except.bind, State.afterTake, State.setRun]
  · refine h.rewrite hr (taken_ok hok hi) rfl rfl rfl rfl ?_
    show _ + 1 + r.used = _ + (r.used + 1)
    omega

def State.afterGive (s : State) (a : Nat) (r : Run) (i : Nat) (now : Nat → Nat) : State :=
  (s.setRun a (r.given i (now 0) (now 1))).setCls (r.cls - 1)
    { s.cls (r.cls - 1) with liveBlocks := (s.cls (r.cls - 1)).liveBlocks - 1 }

theorem blockAddr_index {a i : Nat} {r : Run} (h : RunOk r) :
    (blockAddr a r i - runData a r) / r.elem = i := by
  have hpos : 0 < r.elem := by
    rw [h.elem]
    exact Nat.lt_of_lt_of_le (by omega) h.geometry.elem_pos
  rw [blockAddr, Nat.add_sub_cancel_left, Nat.mul_div_cancel _ hpos]

theorem Core.live_ge {s : State} {L : Nat → List Nat} (h : Core s L) {a : Nat} {r : Run}
    (hr : s.runs a = some r) : r.used ≤ (s.cls (r.cls - 1)).liveBlocks := by
  have hro := h.run a r hr
  have hc : r.cls - 1 < kNumClasses := by
    have h₁ := hro.cls_pos
    have h₂ := hro.cls_le
    omega
  rw [h.lists.live _ hc]
  have hu : usedAt s.runs a = r.used := by simp [usedAt, hr]
  have hsum := sum_map_put (h.lists.nodup _ hc) (h.lists.mem a r hr) (usedAt s.runs) 0
  omega

theorem runGive_spec {s : State} {L : Nat → List Nat} (h : Core s L) {a i : Nat} {r : Run}
    (hr : s.runs a = some r) (hi : i < r.elems) (hbit : bitAt r.bits i = false)
    (now : Nat → Nat) :
    s.runGive a (blockAddr a r i) now = .ok (s.afterGive a r i now) ∧
      Core (s.afterGive a r i now) L := by
  have hok := h.run a r hr
  have hused := given_used hok hi hbit (now 0) (now 1)
  have hlive := h.live_ge hr
  constructor
  · simp [State.runGive, State.run, hr, bind, Except.bind, State.afterGive, State.setRun,
      blockAddr_index hok]
  · refine h.rewrite hr (given_ok hok hi hbit) rfl rfl rfl rfl ?_
    show _ - 1 + r.used = _ + (r.given i (now 0) (now 1)).used
    omega

end Memflux.Alloc
