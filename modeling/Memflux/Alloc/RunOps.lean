import Memflux.Alloc.State

/-! # Reservation, runs and the purge pass

The functions of the allocator below its public entry points, in the order of the
source. Each takes the state to its next state; the class locks make each of them
one step of the system, so no lock appears here.
-/

namespace Memflux.Alloc

open Spans BitWords DList

namespace State

/-! ## Reservation -/

/-- A `MAP_FIXED` mapping. Whatever the answer, page zero, an empty range and a
range that leaves the user half of the address space are refused. -/
def mmapFixed (os : Os) (base size : Nat) : Bool :=
  os.fixedOk && decide (base ≠ 0 ∧ size ≠ 0 ∧ base + size ≤ 2 ^ 63)

/-- `mmap(nullptr, size, …)`. -/
def mmapAnon (os : Os) (size : Nat) : Option Nat := if size = 0 then none else os.anon

def reserveInit (s : State) (os : Os) : State :=
  match os.reserve with
  | none => s
  | some p => { s with resStart := p, resEnd := wrap64 (p + kReserveSize), resBump := p }

def inReserve (s : State) (p : Nat) : Bool := decide (s.resStart ≤ p ∧ p < s.resEnd)

/-- `(want + align - 1) & ~(align - 1)`. -/
def reserveBase (want align : Nat) : Nat := roundDown (wrap64 (want + align - 1)) align

/-- The bump pointer moves by `size + align` before anything is checked. -/
def reserveMap (s : State) (os : Os) (size align : Nat) : Option Nat × State :=
  let want := s.resBump
  let s := { s with resBump := wrap64 (want + wrap64 (size + align)) }
  let base := reserveBase want align
  if s.resEnd < wrap64 (base + size) then (none, s)
  else if mmapFixed os base size then (some base, s.mmap base size align)
  else (none, s)

/-- The mapping step that `run_new` and the large path of `malloc` share. -/
def mapRegion (s : State) (os : Os) (size align : Nat) : Option Nat × State :=
  if s.resStart ≠ 0 then s.reserveMap os size align
  else
    match mmapAnon os size with
    | none => (none, s)
    | some a => (some a, s.mmap a size 4096)

/-! ## Runs -/

def runInsert (s : State) (c : Nat) (a : Nat) : Except Trap State :=
  match link s.runs (s.cls c).head a with
  | none => .error (.outside a)
  | some runs => .ok { s with runs := runs, cls := put s.cls c { s.cls c with head := a } }

def runRemove (s : State) (c : Nat) (a : Nat) : Except Trap State :=
  match unlink s.runs (s.cls c).head a with
  | none => .error (.outside a)
  | some (runs, head) => .ok { s with runs := runs, cls := put s.cls c { s.cls c with head := head } }

/-- The header `run_new` writes; `c` is 1-based. -/
def freshRun (c now : Nat) : Run where
  magic := kMagicRun
  cls := c
  elems := elemsOf (c - 1)
  used := 0
  elem := kSize (c - 1)
  next := 0
  prev := 0
  lastFullyFreeMs := now
  lastTouchMs := now
  bits := ones (elemsOf (c - 1))

/-- `c` is 1-based. -/
def runNew (s : State) (os : Os) (c : Nat) : Except Trap (Option Nat × State) :=
  let map := pageUp (runBytes (elemsOf (c - 1)) (kSize (c - 1)))
  match s.mapRegion os map kRunSize with
  | (none, s) => .ok (none, s)
  | (some a, s) => do
      let s := s.setRun a (freshRun c (os.now 0))
      let s := { s with mapped := s.mapped + map }
      let s ← s.runInsert (c - 1) a
      .ok (some a, s)

end State

/-- `run_data(r)` for a run at `a`. -/
def runData (a : Nat) (r : Run) : Nat := a + dataOffsetPadded r.elems

/-- Address of block `i`. -/
def blockAddr (a : Nat) (r : Run) (i : Nat) : Nat := runData a r + i * r.elem

def runOf (p : Nat) : Nat := roundDown p kRunSize

/-- The answer `run_take` computes from the bitmap. -/
def Run.findFree (r : Run) : Option Nat := firstSet r.bits (bitsWords r.elems) r.elems

/-- The header after block `i` was taken. -/
def Run.taken (r : Run) (i now : Nat) : Run :=
  { r with
    bits := clearLowAt r.bits (i / 64)
    used := r.used + 1
    lastFullyFreeMs := if r.used + 1 = 1 then 0 else r.lastFullyFreeMs
    lastTouchMs := now }

/-- The header after block `i` was given back. -/
def Run.given (r : Run) (i now now' : Nat) : Run :=
  let used := if r.used ≠ 0 then r.used - 1 else r.used
  { r with
    bits := setBit r.bits i
    used := used
    lastTouchMs := now
    lastFullyFreeMs :=
      if used = 0 ∧ r.lastFullyFreeMs = 0 then now' else r.lastFullyFreeMs }

namespace State

def runTake (s : State) (a : Nat) (now : Nat) : Except Trap (Option Nat × State) := do
  let r ← s.run a
  match r.findFree with
  | none => .ok (none, s)
  | some i =>
      let k := s.cls (r.cls - 1)
      let s := s.setRun a (r.taken i now)
      let s := s.setCls (r.cls - 1) { k with liveBlocks := k.liveBlocks + 1 }
      .ok (some (blockAddr a r i), s)

def runGive (s : State) (a p : Nat) (now : Nat → Nat) : Except Trap State := do
  let r ← s.run a
  let i := (p - runData a r) / r.elem
  let k := s.cls (r.cls - 1)
  let s := s.setRun a (r.given i (now 0) (now 1))
  .ok (s.setCls (r.cls - 1) { k with liveBlocks := k.liveBlocks - 1 })

/-- `while(r && r->used == r->elems) r = r->next;` -/
def firstRoom (s : State) : Nat → Nat → Except Trap Nat
  | 0, a => if a = 0 then .ok 0 else .error .diverge
  | fuel + 1, a =>
      if a = 0 then .ok 0
      else do
        let r ← s.run a
        if r.used = r.elems then s.firstRoom fuel r.next else .ok a

/-! ## Ownership tests -/

def oursSmall (s : State) (p : Nat) : Except Trap Bool := do
  let b := runOf p
  let h ← s.runWords b
  if h.magic ≠ kMagicRun ∨ h.cls = 0 ∨ kNumClasses < h.cls then .ok false
  else
    let d := b + dataOffsetPadded h.elems
    if p < d then .ok false
    else .ok (decide (p - d < h.elems * h.elem ∧ (p - d) % h.elem = 0))

def oursLarge (s : State) (p : Nat) : Except Trap Bool := do
  let m ← s.largeMagic (p - sizeofLargeHdr)
  .ok (decide (m = kMagicLarge))

/-! ## Thread cache -/

def tcachePush (s : State) (t : Tid) (c : Nat) (p : Nat) : Option State :=
  if s.tkeyOk then
    match s.tcache t with
    | none => none
    | some tc =>
        if (tc.buf c).length < kTCap then
          some (s.setTcache t (some ⟨put tc.buf c (p :: tc.buf c)⟩))
        else none
  else none

def tcachePop (s : State) (t : Tid) (c : Nat) : Option (Nat × State) :=
  if s.tkeyOk then
    match s.tcache t with
    | none => none
    | some tc =>
        match tc.buf c with
        | [] => none
        | p :: rest => some (p, s.setTcache t (some ⟨put tc.buf c rest⟩))
  else none

/-- One slot of `tcache_dtor`. -/
def drain (s : State) (now : Nat → Nat) (p : Nat) : Except Trap State :=
  if s.inReserve p then do
    if ← s.oursSmall p then
      match s.runs (runOf p) with
      | none => .error (.forged (runOf p))
      | some _ => s.runGive (runOf p) p now
    else .ok s
  else .ok s

/-- The slots in the order the destructor visits them. -/
def TCache.slots (tc : TCache) : List Nat :=
  (List.range kNumClasses).flatMap fun c => (tc.buf c).reverse

def tcacheDtor (s : State) (t : Tid) (now : Nat → Nat → Nat) : Except Trap State :=
  match s.tcache t with
  | none => .ok s
  | some tc =>
      (TCache.slots tc).zipIdx.foldlM (fun s (p, k) => s.drain (now k) p) (s.setTcache t none)

/-- The creation step of `tcache()`. No code calls it. -/
def tcacheNew (s : State) (t : Tid) : State :=
  if s.tkeyOk ∧ s.tcache t = none then s.setTcache t (some ⟨fun _ => []⟩) else s

end State

/-! ## Purge -/

def Run.pageFree (r : Run) (b0 b1 : Nat) : Bool :=
  (List.range' b0 (b1 - b0)).all fun b => bitAt r.bits b

/-- The offsets the page loop passes to `madvise`, from `off` on. -/
def Run.purgeLoop (r : Run) : Nat → Nat → List Nat
  | 0, _ => []
  | fuel + 1, off =>
      if off + 4096 ≤ r.elems * r.elem then
        let b0 := off / r.elem
        let b1 := min ((off + 4096) / r.elem) r.elems
        if b1 ≤ b0 then []
        else (if r.pageFree b0 b1 then [off] else []) ++ r.purgeLoop fuel (off + 4096)
      else []

/-- The pages of a run that one purge gives back, as offsets into its data. -/
def Run.purgeOffsets (r : Run) : List Nat :=
  if 4096 ≤ r.elem ∧ r.elem % 4096 ≠ 0 then []
  else r.purgeLoop (r.elems * r.elem / 4096) 0

namespace State

/-- `madvise` on the listed pages of the run at `a`. -/
def adviseAll (s : State) (d : Nat) (offs : List Nat) : State :=
  offs.foldl (fun s off => { s.dontNeed (d + off) with purged := s.purged + 4096 }) s

/-- The idle test that unmaps a run. -/
def runIdle (s : State) (r : Run) (t : Nat) : Bool :=
  decide (r.used = 0 ∧ s.runIdleMs ≤ wrapSub t r.lastFullyFreeMs)

/-- The idle test that lets the page loop run. -/
def dirtyIdle (s : State) (r : Run) (t : Nat) : Bool :=
  decide (s.dirtyIdleMs ≤ wrapSub t r.lastTouchMs)

def purgeRun (s : State) (a : Nat) (t : Nat) : Except Trap State := do
  let r ← s.run a
  if s.runIdle r t then
    let map := pageUp (runBytes r.elems r.elem)
    let s ← s.runRemove (r.cls - 1) a
    let s := s.munmap a map
    .ok { s with freedToOs := s.freedToOs + map }
  else if s.dirtyIdle r t then
    let r := { r with lastTouchMs := t }
    .ok ((s.setRun a r).adviseAll (runData a r) r.purgeOffsets)
  else .ok s

/-- The list walk of `trim_thread`: the next pointer is read before the purge. -/
def purgeWalk (t : Nat) : Nat → State → Nat → Except Trap State
  | 0, s, a => if a = 0 then .ok s else .error .diverge
  | fuel + 1, s, a =>
      if a = 0 then .ok s
      else do
        let r ← s.run a
        let s ← s.purgeRun a t
        purgeWalk t fuel s r.next

def trimClass (s : State) (c t : Nat) : Except Trap State :=
  purgeWalk t s.maps.length s (s.cls c).head

def trimPass (s : State) (t : Nat) : Except Trap State :=
  if s.ready then (List.range kNumClasses).foldlM (fun s c => s.trimClass c t) s else .ok s

end State

end Memflux.Alloc
