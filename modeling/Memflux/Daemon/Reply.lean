import Memflux.Core.Effects
import Memflux.Core.Meminfo
import Memflux.Core.Printing

/-! # Requests and responses

A request is two words of 32 bits, the low byte first. The responses are texts; the
numbers in them are printed by `snprintf` into buffers of a fixed size. What libc makes
of a double is a parameter.
-/

namespace Memflux.Daemon

open Memflux.Core Double

/-- `%.1f`, and the conversion of a double to `unsigned`. -/
structure Libc (F : Type) where
  fixed : F → Bytes
  toUnsigned : F → Nat

/-! ## Requests -/

structure Request where
  cmd : Nat
  arg : Nat
  deriving DecidableEq

/-- The bytes of a `uint32_t`. -/
def word (n : Nat) : Bytes :=
  [n.toUInt8, (n / 256).toUInt8, (n / 65536).toUInt8, (n / 16777216).toUInt8]

/-- The `uint32_t` that four bytes make. -/
def ofWord (b : Bytes) : Nat := b.foldr (fun d n => d.toNat + 256 * n) 0

/-- What `send_request` writes. -/
def Request.bytes (r : Request) : Bytes := word r.cmd ++ word r.arg

/-- The request in what `read` returned, if that is the size of one. -/
def Request.ofBytes (b : Bytes) : Option Request :=
  if b.length = 8 then some ⟨ofWord (b.take 4), ofWord (b.drop 4)⟩ else none

inductive Cmd where
  | status
  | pause
  | resume
  | kick
  | adjust
  | top
  | force
  deriving DecidableEq

def Cmd.code : Cmd → Nat
  | .status => 1
  | .pause => 2
  | .resume => 3
  | .kick => 4
  | .adjust => 5
  | .top => 6
  | .force => 7

/-- The `switch` on the first word. -/
def Cmd.ofCode (n : Nat) : Option Cmd :=
  [Cmd.status, .pause, .resume, .kick, .adjust, .top, .force].find? fun c => c.code = n

@[simp] theorem Cmd.ofCode_code (c : Cmd) : Cmd.ofCode c.code = some c := by cases c <;> decide

theorem ofWord_word {n : Nat} (h : n < 2 ^ 32) : ofWord (word n) = n := by
  simp only [ofWord, word, List.foldr_cons, List.foldr_nil, Nat.toUInt8, UInt8.toNat_ofNat']
  omega

theorem Request.ofBytes_bytes {r : Request} (hcmd : r.cmd < 2 ^ 32) (harg : r.arg < 2 ^ 32) :
    Request.ofBytes r.bytes = some r := by
  have hlength : r.bytes.length = 8 := rfl
  have htake : r.bytes.take 4 = word r.cmd := rfl
  have hdrop : r.bytes.drop 4 = word r.arg := rfl
  rw [Request.ofBytes, if_pos hlength, htake, hdrop, ofWord_word hcmd, ofWord_word harg]

/-! ## Printing -/

def padLeft (width : Nat) (s : Bytes) : Bytes := List.replicate (width - s.length) 32 ++ s

def padRight (width : Nat) (s : Bytes) : Bytes := s ++ List.replicate (width - s.length) 32

/-- What a buffer of `room` bytes holds of a text. -/
def snprintf (room : Nat) (s : Bytes) : Bytes := s.take (room - 1)

/-! ## Responses -/

section

variable {F : Type} [Double F]

/-- The response to `C_STATUS`, before it goes into its buffer of 512 bytes. -/
def statusText (libc : Libc F) (st : GlobalStats) (m : MemReport) (threshold : F) (paused : Bool) :
    Bytes :=
  ascii "cycles=" ++ digits (u64 st.cycles) ++
    (ascii " pageout_mb=" ++ digits (u64 st.pageoutsKb / 1024)) ++
    (ascii " cgroup_mb=" ++ digits (u64 st.cgroupReclaimedKb / 1024)) ++
    (ascii " errors=" ++ digits (u64 st.errors)) ++
    (ascii "\nmem_total_mb=" ++ digits (u64 m.totalKb / 1024)) ++
    (ascii " mem_free_mb=" ++ digits (u64 m.freeKb / 1024)) ++
    (ascii " anon_mb=" ++ digits (u64 m.anonKb / 1024)) ++
    (ascii " swap_free_mb=" ++ digits (u64 m.swapFreeKb / 1024)) ++
    (ascii "\npsi_thresh=" ++ digits (u32 (libc.toUnsigned (mul threshold (ofNat 1000))))) ++
    (ascii " paused=" ++ if paused then [49] else [48])

def statusReply (libc : Libc F) (st : GlobalStats) (m : MemReport) (threshold : F) (paused : Bool) :
    Bytes :=
  snprintf 512 (statusText libc st m threshold paused)

/-- `"%-7s %-20s %10s %8s %8s %8s"`. -/
def topHeader : Bytes :=
  padRight 7 (ascii "PID") ++ 32 :: padRight 20 (ascii "COMM") ++ 32 :: padLeft 10 (ascii "ANON_MB") ++
    32 :: padLeft 8 (ascii "WS%") ++ 32 :: padLeft 8 (ascii "SCORE") ++ 32 :: padLeft 8 (ascii "SWAP_MB")

/-- `"\n%-7d %-20.20s %10llu %8.1f %8.1f %8llu"`. -/
def topLine (libc : Libc F) (ps : ProcessStat F) : Bytes :=
  10 :: padRight 7 (digits ps.pid) ++ 32 :: padRight 20 ((cstr ps.comm).take 20) ++
    32 :: padLeft 10 (digits (u64 ps.anonKb / 1024)) ++
    32 :: padLeft 8 (libc.fixed (mul ps.wsRatio (ofNat 100))) ++ 32 :: padLeft 8 (libc.fixed ps.score) ++
    32 :: padLeft 8 (digits (u64 ps.swapKb / 1024))

/-- The rows that `C_TOP` shows, of a sorted snapshot. -/
def topRows (arg : Nat) (sorted : List (ProcessStat F)) : List (ProcessStat F) :=
  sorted.take (if arg ≠ 0 then arg else 10)

def topReply (libc : Libc F) (arg : Nat) (sorted : List (ProcessStat F)) : Bytes :=
  snprintf 256 topHeader ++ (topRows arg sorted).flatMap fun ps => snprintf 256 (topLine libc ps)

def forceReply (kb : Nat) : Bytes :=
  snprintf 128 (ascii "forced cycle: " ++ digits (u64 kb / 1024) ++ ascii " MB reclaimed")

theorem statusReply_eq (libc : Libc F) (st : GlobalStats) (m : MemReport) (threshold : F)
    (paused : Bool) :
    statusReply libc st m threshold paused = statusText libc st m threshold paused := by
  have hmega : ∀ n, (digits (u64 n / 1024)).length ≤ 20 := by
    intro n
    apply digits_length (by decide)
    have hlt : u64 n < 2 ^ 64 := Nat.mod_lt _ (by decide)
    exact Nat.lt_of_le_of_lt (Nat.div_le_self _ _) (Nat.lt_trans hlt (by decide))
  have hunsigned : ∀ n, (digits (u32 n)).length ≤ 10 := by
    intro n
    apply digits_length (by decide)
    have hlt : u32 n < 2 ^ 32 := Nat.mod_lt _ (by decide)
    exact Nat.lt_trans hlt (by decide)
  have h₁ := digits_u64 st.cycles
  have h₂ := hmega st.pageoutsKb
  have h₃ := hmega st.cgroupReclaimedKb
  have h₄ := digits_u64 st.errors
  have h₅ := hmega m.totalKb
  have h₆ := hmega m.freeKb
  have h₇ := hmega m.anonKb
  have h₈ := hmega m.swapFreeKb
  have h₉ := hunsigned (libc.toUnsigned (mul threshold (ofNat 1000)))
  have hflag : (if paused then [49] else [48] : Bytes).length = 1 := by cases paused <;> rfl
  have hlabels : (ascii "cycles=").length = 7 ∧ (ascii " pageout_mb=").length = 12 ∧
      (ascii " cgroup_mb=").length = 11 ∧ (ascii " errors=").length = 8 ∧
      (ascii "\nmem_total_mb=").length = 14 ∧ (ascii " mem_free_mb=").length = 13 ∧
      (ascii " anon_mb=").length = 9 ∧ (ascii " swap_free_mb=").length = 14 ∧
      (ascii "\npsi_thresh=").length = 12 ∧ (ascii " paused=").length = 8 := by decide
  apply List.take_of_length_le
  unfold statusText
  simp only [List.length_append]
  omega

theorem topHeader_fits : snprintf 256 topHeader = topHeader := by decide

end

/-! ## Reading a status -/

def numbers (s : Bytes) : List Nat :=
  (s.splitOn 61).tail.map fun piece => decimal (piece.takeWhile isDigit)

def labelled (fields : List (Bytes × Bytes)) : Bytes := fields.flatMap fun f => f.1 ++ 61 :: f.2

/-- A label has no equals sign and does not begin with a digit, and a number has digits only. -/
def Readable (f : Bytes × Bytes) : Prop :=
  (61 : UInt8) ∉ f.1 ∧ (∃ b l, f.1 = b :: l ∧ isDigit b = false) ∧ ∀ d ∈ f.2, isDigit d = true

theorem equals_not_mem {ds : Bytes} (h : ∀ d ∈ ds, isDigit d = true) : (61 : UInt8) ∉ ds :=
  fun hmem => absurd (h 61 hmem) (by decide)

/-- The pieces between the equals signs, when the text comes after the number `w`. -/
theorem splitOn_labelled {fields : List (Bytes × Bytes)} (hf : ∀ f ∈ fields, Readable f) {w : Bytes}
    (hw : ∀ d ∈ w, isDigit d = true) :
    ∃ piece pieces, (w ++ labelled fields).splitOn 61 = piece :: pieces ∧
      piece.takeWhile isDigit = w ∧
        pieces.map (fun p => decimal (p.takeWhile isDigit)) = fields.map fun f => decimal f.2 := by
  have hself : ∀ w : Bytes, (∀ d ∈ w, isDigit d = true) → w.takeWhile isDigit = w :=
    fun w hw => List.takeWhile_eq_self_iff.mpr hw
  induction fields generalizing w with
  | nil =>
      refine ⟨w, [], ?_, hself w hw, rfl⟩
      rw [labelled, List.flatMap_nil, List.append_nil]
      exact List.splitOn_eq_singleton (equals_not_mem hw)
  | cons f fields ih =>
      obtain ⟨hlabel, ⟨b, l, hfirst, hdigit⟩, hnumber⟩ := hf f List.mem_cons_self
      obtain ⟨piece, pieces, hsplit, hpiece, hrest⟩ :=
        ih (fun g hg => hf g (List.mem_cons_of_mem f hg)) hnumber
      have htext : w ++ labelled (f :: fields) = (w ++ f.1) ++ 61 :: (f.2 ++ labelled fields) := by
        simp only [labelled, List.flatMap_cons, List.append_assoc, List.cons_append]
      have hno : (61 : UInt8) ∉ w ++ f.1 := by
        rw [List.mem_append]
        exact not_or.mpr ⟨equals_not_mem hw, hlabel⟩
      refine ⟨w ++ f.1, piece :: pieces, ?_, ?_, ?_⟩
      · rw [htext, List.splitOn_append_cons_self, List.splitOn_eq_singleton hno, hsplit,
          List.singleton_append]
      · rw [hfirst, List.takeWhile_append_of_pos hw, List.takeWhile_cons_of_neg (by simp [hdigit]),
          List.append_nil]
      · rw [List.map_cons, List.map_cons, hpiece, hrest]

theorem numbers_labelled {fields : List (Bytes × Bytes)} (hf : ∀ f ∈ fields, Readable f) :
    numbers (labelled fields) = fields.map fun f => decimal f.2 := by
  obtain ⟨piece, pieces, hsplit, -, hrest⟩ := splitOn_labelled hf (w := []) (fun _ h => nomatch h)
  rw [List.nil_append] at hsplit
  rw [numbers, hsplit, List.tail_cons, hrest]

section

variable {F : Type} [Double F]

theorem numbers_statusReply (libc : Libc F) (st : GlobalStats) (m : MemReport) (threshold : F)
    (paused : Bool) :
    numbers (statusReply libc st m threshold paused) =
      [u64 st.cycles, u64 st.pageoutsKb / 1024, u64 st.cgroupReclaimedKb / 1024, u64 st.errors,
        u64 m.totalKb / 1024, u64 m.freeKb / 1024, u64 m.anonKb / 1024, u64 m.swapFreeKb / 1024,
        u32 (libc.toUnsigned (mul threshold (ofNat 1000))), if paused then 1 else 0] := by
  have hflag : (if paused then [49] else [48] : Bytes) = digits (if paused then 1 else 0) := by
    cases paused <;> rfl
  have htext : statusText libc st m threshold paused = labelled
      [(ascii "cycles", digits (u64 st.cycles)),
        (ascii " pageout_mb", digits (u64 st.pageoutsKb / 1024)),
        (ascii " cgroup_mb", digits (u64 st.cgroupReclaimedKb / 1024)),
        (ascii " errors", digits (u64 st.errors)),
        (ascii "\nmem_total_mb", digits (u64 m.totalKb / 1024)),
        (ascii " mem_free_mb", digits (u64 m.freeKb / 1024)),
        (ascii " anon_mb", digits (u64 m.anonKb / 1024)),
        (ascii " swap_free_mb", digits (u64 m.swapFreeKb / 1024)),
        (ascii "\npsi_thresh", digits (u32 (libc.toUnsigned (mul threshold (ofNat 1000))))),
        (ascii " paused", digits (if paused then 1 else 0))] := by
    have hequals : ascii "cycles=" = ascii "cycles" ++ [61] ∧
        ascii " pageout_mb=" = ascii " pageout_mb" ++ [61] ∧
        ascii " cgroup_mb=" = ascii " cgroup_mb" ++ [61] ∧ ascii " errors=" = ascii " errors" ++ [61] ∧
        ascii "\nmem_total_mb=" = ascii "\nmem_total_mb" ++ [61] ∧
        ascii " mem_free_mb=" = ascii " mem_free_mb" ++ [61] ∧
        ascii " anon_mb=" = ascii " anon_mb" ++ [61] ∧
        ascii " swap_free_mb=" = ascii " swap_free_mb" ++ [61] ∧
        ascii "\npsi_thresh=" = ascii "\npsi_thresh" ++ [61] ∧
        ascii " paused=" = ascii " paused" ++ [61] := by decide
    obtain ⟨h₁, h₂, h₃, h₄, h₅, h₆, h₇, h₈, h₉, h₁₀⟩ := hequals
    simp only [statusText, labelled, hflag, h₁, h₂, h₃, h₄, h₅, h₆, h₇, h₈, h₉, h₁₀,
      List.flatMap_cons, List.flatMap_nil, List.append_assoc, List.cons_append, List.nil_append,
      List.append_nil]
  have hlabels : ∀ l ∈ [ascii "cycles", ascii " pageout_mb", ascii " cgroup_mb", ascii " errors",
      ascii "\nmem_total_mb", ascii " mem_free_mb", ascii " anon_mb", ascii " swap_free_mb",
      ascii "\npsi_thresh", ascii " paused"],
        (61 : UInt8) ∉ l ∧ l ≠ [] ∧ isDigit (l.headD 48) = false := by decide
  rw [statusReply_eq, htext, numbers_labelled]
  · simp only [List.map_cons, List.map_nil, decimal_digits]
  · intro f hf
    have hmem : f.1 ∈ [ascii "cycles", ascii " pageout_mb", ascii " cgroup_mb", ascii " errors",
        ascii "\nmem_total_mb", ascii " mem_free_mb", ascii " anon_mb", ascii " swap_free_mb",
        ascii "\npsi_thresh", ascii " paused"] := List.mem_map_of_mem (f := Prod.fst) hf
    have hprinted : ∃ n, f.2 = digits n := by
      simp only [List.mem_cons, List.not_mem_nil, or_false] at hf
      rcases hf with rfl | rfl | rfl | rfl | rfl | rfl | rfl | rfl | rfl | rfl <;> exact ⟨_, rfl⟩
    obtain ⟨hno, hsome, hfirst⟩ := hlabels f.1 hmem
    obtain ⟨b, l, hl⟩ := List.exists_cons_of_ne_nil hsome
    obtain ⟨n, hn⟩ := hprinted
    refine ⟨hno, ⟨b, l, hl, ?_⟩, ?_⟩
    · rwa [hl] at hfirst
    · rw [hn]
      exact digits_isDigit n

end

end Memflux.Daemon
