import Memflux.Alloc.Classes
import Memflux.Lib.DList

/-! # The allocator's state and its memory

The state holds the globals of the allocator, the mappings it made, the headers
that live in them and the bytes of everything else. A header is a record at the
base address of its mapping; the words of a header are read from that record, and
any other word is read from the bytes. An access that leaves the mappings stops
the run with `Trap.outside`; a step that goes on with a header made of
application bytes stops the model with `Trap.forged`.
-/

namespace Memflux.Alloc

open Spans BitWords DList

abbrev Tid := Nat

def kMagicRun : Nat := 0x4D465552
def kMagicLarge : Nat := 0x4D46554C

/-- `struct Run`; an address of `0` is the null pointer. -/
structure Run where
  magic : Nat
  cls : Nat
  elems : Nat
  used : Nat
  elem : Nat
  next : Nat
  prev : Nat
  lastFullyFreeMs : Nat
  lastTouchMs : Nat
  bits : List Word
  deriving DecidableEq

instance : Linked Run where
  next := Run.next
  prev := Run.prev
  setNext a r := { r with next := a }
  setPrev a r := { r with prev := a }
  next_setNext _ _ := rfl
  next_setPrev _ _ := rfl
  prev_setNext _ _ := rfl
  prev_setPrev _ _ := rfl

structure LargeHdr where
  magic : Nat
  mapSize : Nat
  user : Nat
  deriving DecidableEq

structure ClassState where
  head : Nat
  liveBlocks : Nat
  deriving DecidableEq

/-- `buf c` lists the cached blocks of class `c`, the last pushed first; its
length is `n[c]`. -/
structure TCache where
  buf : Nat → List Nat

def kTCap : Nat := 16

/-- Why a run of the program leaves the model. -/
inductive Trap where
  /-- A header access at this address is not inside a mapping of the allocator. -/
  | outside (a : Nat)
  /-- A copy or a clearing of `n` bytes from this address leaves its mapping. -/
  | overrun (a n : Nat)
  /-- The header at this address, on which the code acts, is application data. -/
  | forged (a : Nat)
  /-- A list walk outran the number of mappings. -/
  | diverge
  deriving DecidableEq

/-- The globals, the mappings and the memory. `maps` lists what `mmap` gave and
`munmap` did not take back; the PROT_NONE reservation is not in it. -/
structure State where
  ready : Bool
  tkeyOk : Bool
  runIdleMs : Nat
  dirtyIdleMs : Nat
  resStart : Nat
  resEnd : Nat
  resBump : Nat
  cls : Nat → ClassState
  mapped : Nat
  freedToOs : Nat
  purged : Nat
  tcache : Tid → Option TCache
  maps : List Span
  runs : Nat → Option Run
  larges : Nat → Option LargeHdr
  mem : Nat → UInt8

/-- Before the first call; the tuning values are those `read_env` will leave. -/
def State.init (runIdleMs dirtyIdleMs : Nat) : State where
  ready := false
  tkeyOk := false
  runIdleMs := runIdleMs
  dirtyIdleMs := dirtyIdleMs
  resStart := 0
  resEnd := 0
  resBump := 0
  cls := fun _ => ⟨0, 0⟩
  mapped := 0
  freedToOs := 0
  purged := 0
  tcache := fun _ => none
  maps := []
  runs := fun _ => none
  larges := fun _ => none
  mem := fun _ => 0

/-- What the kernel, the clock and libc answer during one call: the address of
the reservation, whether the thread key could be made, the address of an
anonymous mapping, whether a fixed mapping succeeds, the successive clock
readings, and libc's `realloc`. -/
structure Os where
  reserve : Option Nat
  keyOk : Bool
  anon : Option Nat
  fixedOk : Bool
  now : Nat → Nat
  libc : Option Nat

namespace State

/-! ## Memory -/

/-- `n` bytes from `a` lie in one read-write mapping. -/
def readable (s : State) (a n : Nat) : Bool :=
  s.maps.any fun g => decide (g.base ≤ a ∧ a + n ≤ g.stop)

/-- Little-endian 32-bit word of the bytes at `a`. -/
def load32 (s : State) (a : Nat) : Nat :=
  (s.mem a).toNat + 256 * (s.mem (a + 1)).toNat + 65536 * (s.mem (a + 2)).toNat +
    16777216 * (s.mem (a + 3)).toNat

/-- The bytes of `[a, a + n)` become those of `f`. -/
def fill (s : State) (a n : Nat) (f : Nat → UInt8) : State :=
  { s with mem := fun x => if a ≤ x ∧ x < a + n then f x else s.mem x }

/-- No header based in `[a, a + n)` survives. -/
def dropHeaders (s : State) (a n : Nat) : State :=
  { s with
    runs := fun x => if a ≤ x ∧ x < a + n then none else s.runs x
    larges := fun x => if a ≤ x ∧ x < a + n then none else s.larges x }

/-- A successful `mmap` of fresh zero pages at `base`. What it maps over, which takes a bump
pointer that has wrapped, stays in `maps`: it was handed out and is not taken back. -/
def mmap (s : State) (base size align : Nat) : State :=
  let s := (s.dropHeaders base size).fill base size (fun _ => 0)
  { s with maps := ⟨base, size, align⟩ :: s.maps }

def munmap (s : State) (a len : Nat) : State :=
  let s := s.dropHeaders a len
  { s with maps := release a len s.maps }

/-- `madvise(a, 4096, MADV_DONTNEED)`: the page reads as zero again. -/
def dontNeed (s : State) (a : Nat) : State := s.fill a 4096 (fun _ => 0)

def memsetZero (s : State) (p : Nat) (n : Nat) : Except Trap State :=
  if s.readable p n then .ok (s.fill p n (fun _ => 0)) else .error (.overrun p n)

def memcpy (s : State) (q p n : Nat) : Except Trap State :=
  if ¬ s.readable p n then .error (.overrun p n)
  else if ¬ s.readable q n then .error (.overrun q n)
  else .ok (s.fill q n (fun x => s.mem (p + (x - q))))

/-! ## Headers -/

/-- Dereference a `Run` the allocator holds a pointer to. -/
def run (s : State) (a : Nat) : Except Trap Run :=
  match s.runs a with
  | some r => .ok r
  | none => .error (.outside a)

def setRun (s : State) (a : Nat) (r : Run) : State := { s with runs := put s.runs a (some r) }

def setLarge (s : State) (a : Nat) (h : LargeHdr) : State :=
  { s with larges := put s.larges a (some h) }

def setCls (s : State) (c : Nat) (k : ClassState) : State := { s with cls := put s.cls c k }

def setTcache (s : State) (t : Tid) (tc : Option TCache) : State :=
  { s with tcache := put s.tcache t tc }

/-- The four words `ours_small` tests. -/
structure RunWords where
  magic : Nat
  cls : Nat
  elems : Nat
  elem : Nat

/-- Their addresses, for a header at `b`. -/
def runWordsAt (b : Nat) : List Nat := [b, b + 4, b + 8, b + 16]

/-- Read them at `b`, where a run header, a large header or anything else may be. -/
def runWords (s : State) (b : Nat) : Except Trap RunWords :=
  match s.runs b with
  | some r => .ok ⟨r.magic, r.cls, r.elems, r.elem⟩
  | none =>
      match s.larges b with
      | some h => .ok ⟨h.magic, 0, h.mapSize % 2 ^ 32, h.user % 2 ^ 32⟩
      | none =>
          if s.readable b 20 then
            .ok ⟨s.load32 b, s.load32 (b + 4), s.load32 (b + 8), s.load32 (b + 16)⟩
          else .error (.outside b)

/-- The magic word of a `LargeHdr` at `a`. -/
def largeMagic (s : State) (a : Nat) : Except Trap Nat :=
  match s.larges a with
  | some h => .ok h.magic
  | none => if s.readable a 4 then .ok (s.load32 a) else .error (.outside a)

end State

/-! ## Frame equations -/

namespace State

@[simp] theorem setRun_same (s : State) (a : Nat) (r : Run) : (s.setRun a r).runs a = some r := by
  simp [setRun]

@[simp] theorem dropHeaders_maps (s : State) (a n : Nat) : (s.dropHeaders a n).maps = s.maps := rfl

@[simp] theorem mmap_maps (s : State) (base size align : Nat) :
    (s.mmap base size align).maps = ⟨base, size, align⟩ :: s.maps := rfl

@[simp] theorem munmap_maps (s : State) (a len : Nat) :
    (s.munmap a len).maps = release a len s.maps := rfl

theorem mmap_runs_some {s : State} {base size align x : Nat} {r : Run}
    (h : (s.mmap base size align).runs x = some r) : s.runs x = some r := by
  simp only [mmap, fill, dropHeaders] at h
  split at h
  · cases h
  · exact h

theorem mmap_larges_some {s : State} {base size align x : Nat} {l : LargeHdr}
    (h : (s.mmap base size align).larges x = some l) : s.larges x = some l := by
  simp only [mmap, fill, dropHeaders] at h
  split at h
  · cases h
  · exact h

theorem munmap_runs_some {s : State} {a len x : Nat} {r : Run}
    (h : (s.munmap a len).runs x = some r) : ¬ (a ≤ x ∧ x < a + len) ∧ s.runs x = some r := by
  simp only [munmap, dropHeaders] at h
  split at h
  · cases h
  · exact ⟨by assumption, h⟩

theorem munmap_larges_some {s : State} {a len x : Nat} {l : LargeHdr}
    (h : (s.munmap a len).larges x = some l) : ¬ (a ≤ x ∧ x < a + len) ∧ s.larges x = some l := by
  simp only [munmap, dropHeaders] at h
  split at h
  · cases h
  · exact ⟨by assumption, h⟩

theorem readable_iff {s : State} {a n : Nat} :
    s.readable a n = true ↔ ∃ g ∈ s.maps, g.base ≤ a ∧ a + n ≤ g.stop := by
  simp [readable]

end State

end Memflux.Alloc
