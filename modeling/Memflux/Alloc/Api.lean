import Memflux.Alloc.RunOps

/-! # The interposed entry points

`malloc`, `free`, `realloc` and the calls built on them, one call at a time. A
null pointer is `none` in an answer and `0` in an argument. The answer of `free`
says which branch was taken; `realloc` says whether libc answered.
-/

namespace Memflux.Alloc

open Spans BitWords DList

/-- The answers left for the second half of a call that already read the clock
`k` times. -/
def Os.after (os : Os) (k : Nat) : Os := { os with now := fun i => os.now (k + i) }

inductive Freed where
  | null
  | libc
  | cached
  | small
  | large
  | ignored
  deriving DecidableEq

structure Reply where
  ptr : Option Nat
  byLibc : Bool
  deriving DecidableEq

inductive Aligned where
  | einval
  | enomem
  | ok (q : Nat)
  deriving DecidableEq

namespace State

/-- `ensure_init` as one thread runs it, `do_init` included. -/
def ensureInit (s : State) (os : Os) : State :=
  if s.ready then s
  else
    let s := if s.resStart = 0 then s.reserveInit os else s
    { s with tkeyOk := os.keyOk, ready := true }

def mallocLarge (s : State) (os : Os) (n : Nat) : Option Nat × State :=
  let map := largeMap n
  match s.mapRegion os map 4096 with
  | (none, s) => (none, s)
  | (some a, s) =>
      let s := s.setLarge a ⟨kMagicLarge, map, n⟩
      (some (a + sizeofLargeHdr), { s with mapped := s.mapped + map })

/-- The slow path of `malloc` for class `c` (0-based), under its lock. -/
def mallocSlow (s : State) (os : Os) (c : Nat) : Except Trap (Option Nat × State) := do
  let a ← s.firstRoom s.maps.length (s.cls c).head
  if a = 0 then
    let (r, s) ← s.runNew os (c + 1)
    match r with
    | none => .ok (none, s)
    | some a => s.runTake a (os.now 1)
  else s.runTake a (os.now 1)

/-- `malloc` once the allocator is initialised; `n` is not zero. -/
def mallocReady (s : State) (t : Tid) (os : Os) (n : Nat) : Except Trap (Option Nat × State) :=
  if kLargeMin ≤ n then .ok (s.mallocLarge os n)
  else
    let c := classOf n - 1
    match s.tcachePop t c with
    | some (p, s) => .ok (some p, s)
    | none => s.mallocSlow os c

def malloc (s : State) (t : Tid) (os : Os) (n : Nat) : Except Trap (Option Nat × State) :=
  let n := if n = 0 then 1 else n
  (s.ensureInit os).mallocReady t os n

/-- The branch of `free` for a pointer `ours_small` accepts. -/
def freeSmall (s : State) (t : Tid) (now : Nat → Nat) (p : Nat) : Except Trap (Freed × State) :=
  match s.runs (runOf p) with
  | none => .error (.forged (runOf p))
  | some r =>
      match s.tcachePush t (r.cls - 1) p with
      | some s => .ok (.cached, s)
      | none => do
          let s ← s.runGive (runOf p) p now
          .ok (.small, s)

/-- The branch of `free` for a pointer `ours_large` accepts: the length is read
for `munmap`, and read again from the header afterwards. -/
def freeLarge (s : State) (p : Nat) : Except Trap (Freed × State) :=
  let a := p - sizeofLargeHdr
  match s.larges a with
  | none => .error (.forged a)
  | some h =>
      let s := s.munmap a h.mapSize
      match s.larges a with
      | none => .error (.outside (a + 8))
      | some h => .ok (.large, { s with freedToOs := s.freedToOs + h.mapSize })

def free (s : State) (t : Tid) (now : Nat → Nat) (p : Nat) : Except Trap (Freed × State) :=
  if p = 0 then .ok (.null, s)
  else if s.resStart ≠ 0 ∧ ¬ s.inReserve p then .ok (.libc, s)
  else if s.inReserve p then do
    if ← s.oursSmall p then s.freeSmall t now p
    else if ← s.oursLarge p then s.freeLarge p
    else .ok (.ignored, s)
  else .ok (.ignored, s)

def calloc (s : State) (t : Tid) (os : Os) (nm sz : Nat) : Except Trap (Option Nat × State) :=
  if 2 ^ 64 ≤ nm * sz then .ok (none, s)
  else do
    let (p, s) ← s.malloc t os (nm * sz)
    match p with
    | none => .ok (none, s)
    | some p => do
        let s ← s.memsetZero p (nm * sz)
        .ok (some p, s)

/-- The size `realloc` attributes to a pointer, or nothing for one it does not own. -/
def oldSize (s : State) (p : Nat) : Except Trap (Option Nat) :=
  if s.resStart ≠ 0 ∧ s.inReserve p then do
    if ← s.oursSmall p then
      match s.runs (runOf p) with
      | none => .error (.forged (runOf p))
      | some r => .ok (some r.elem)
    else if ← s.oursLarge p then
      match s.larges (p - sizeofLargeHdr) with
      | none => .error (.forged (p - sizeofLargeHdr))
      | some h => .ok (some h.user)
    else .ok none
  else .ok none

/-- The moving half of `realloc`: a new block, a copy, and the old block freed. -/
def reallocMove (s : State) (t : Tid) (os : Os) (p old n : Nat) : Except Trap (Reply × State) := do
  let (np, s) ← s.malloc t os n
  match np with
  | none => .ok (⟨none, false⟩, s)
  | some q => do
      let s ← s.memcpy q p (min old n)
      let (_, s) ← s.free t (os.after 2).now p
      .ok (⟨some q, false⟩, s)

def realloc (s : State) (t : Tid) (os : Os) (p n : Nat) : Except Trap (Reply × State) :=
  if p = 0 then do
    let (q, s) ← s.malloc t os n
    .ok (⟨q, false⟩, s)
  else if n = 0 then do
    let (_, s) ← s.free t os.now p
    let (q, s) ← s.malloc t (os.after 2) 1
    .ok (⟨q, false⟩, s)
  else do
    match ← s.oldSize p with
    | none => .ok (⟨os.libc, true⟩, s)
    | some old =>
        if n ≤ old ∧ old < kLargeMin ∧ old / 2 < n then .ok (⟨some p, false⟩, s)
        else s.reallocMove t os p old n

def reallocarray (s : State) (t : Tid) (os : Os) (p nm sz : Nat) : Except Trap (Reply × State) :=
  if 2 ^ 64 ≤ nm * sz then .ok (⟨none, false⟩, s) else s.realloc t os p (nm * sz)

/-- `posix_memalign` with a non-null `out`, split at its call of `malloc`: the
alignment it enforces, or `EINVAL`. -/
def memalignAlign (align : Nat) : Option Nat :=
  let align := if align < 8 then 8 else align
  if align &&& (align - 1) ≠ 0 then none else some align

/-- `n + align + 4096`. -/
def memalignNeed (align n : Nat) : Nat := wrap64 (n + align + 4096)

/-- `((uintptr_t)p + align - 1) & ~(align - 1)`. -/
def alignPtr (p align : Nat) : Nat := roundDown (wrap64 (p + align - 1)) align

def posixMemalign (s : State) (t : Tid) (os : Os) (outNull : Bool) (align n : Nat) :
    Except Trap (Aligned × State) :=
  if outNull then .ok (.einval, s)
  else
    match memalignAlign align with
    | none => .ok (.einval, s)
    | some align => do
        let (p, s) ← s.malloc t os (memalignNeed align n)
        match p with
        | none => .ok (.enomem, s)
        | some p => .ok (.ok (alignPtr p align), s)

def alignedAlloc (s : State) (t : Tid) (os : Os) (align n : Nat) :
    Except Trap (Option Nat × State) := do
  let (r, s) ← s.posixMemalign t os false (if align ≠ 0 then align else 1) n
  match r with
  | .ok q => .ok (some q, s)
  | _ => .ok (none, s)

def memalign (s : State) (t : Tid) (os : Os) (align n : Nat) : Except Trap (Option Nat × State) :=
  s.alignedAlloc t os align n

/-- `sysconf(_SC_PAGESIZE)`. -/
def pageSize : Nat := 4096

def valloc (s : State) (t : Tid) (os : Os) (n : Nat) : Except Trap (Option Nat × State) :=
  s.alignedAlloc t os pageSize n

def pvalloc (s : State) (t : Tid) (os : Os) (n : Nat) : Except Trap (Option Nat × State) :=
  s.alignedAlloc t os pageSize (roundDown (wrap64 (n + pageSize - 1)) pageSize)

end State

end Memflux.Alloc
