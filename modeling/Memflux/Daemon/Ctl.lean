import Memflux.Core.ProcFiles
import Memflux.Daemon.Ipc

/-! # `memfluxctl`

The tool turns its arguments into a request, sends it, prints the response, and says with
its exit code what became of it.
-/

namespace Memflux.Daemon

open Memflux.Core Double Simulation

/-! ## Sending a request -/

/-- What the kernel answers to `send_request`: the errors of the first two calls, what was
written, and what the reads give until the first that gives nothing. -/
structure Dialog where
  socketErrno : Option Nat := none
  connectErrno : Option Nat := none
  written : Nat := 8
  writeErrno : Nat := 0
  reads : List Bytes := []

def Dialog.stream (k : Dialog) : Bytes := (k.reads.takeWhile (· ≠ [])).flatten

def sendRequest (k : Dialog) : Bytes × Nat :=
  match k.socketErrno with
  | some e => ([], e)
  | none =>
      match k.connectErrno with
      | some e => ([], e)
      | none => if k.written ≠ 8 then ([], k.writeErrno) else (k.stream, 0)

/-! ## The command line -/

def utf8 (s : String) : Bytes := s.toUTF8.toList

/-- The end of the program, with what it wrote to its two outputs. -/
structure Exit where
  code : Nat
  out : Bytes := []
  err : Bytes := []
  deriving DecidableEq

/-- `(uint32_t)atoi(s)`. -/
def atoi (s : Bytes) : Nat := ((strtoll s).1 % 2 ^ 32).toNat

/-- The request that the arguments ask for, or how the tool ends without one. -/
def asked : List Bytes → Except Exit Request
  | _ :: c :: rest =>
      if c = ascii "status" then .ok ⟨Cmd.status.code, 0⟩
      else if c = ascii "top" then .ok ⟨Cmd.top.code, (rest.head?.map atoi).getD 10⟩
      else if c = ascii "pause" then .ok ⟨Cmd.pause.code, 0⟩
      else if c = ascii "resume" then .ok ⟨Cmd.resume.code, 0⟩
      else if c = ascii "kick" then .ok ⟨Cmd.kick.code, 0⟩
      else if c = ascii "force" then .ok ⟨Cmd.force.code, 0⟩
      else if c = ascii "adjust" then
        match rest with
        | v :: _ => .ok ⟨Cmd.adjust.code, atoi v⟩
        | [] => .error { code := 1, err := ascii "adjust <psi x1000, ex: 150>\n" }
      else .error { code := 1, err := ascii "cmd inconnue: " ++ c ++ [10] }
  | _ => .error
      { code := 1
        err := ascii "usage: memfluxctl <status|top [n]|pause|resume|kick|force|adjust <psi_x1000>>\n" }

def ctl (argv : List Bytes) (k : Dialog) : Exit :=
  match asked argv with
  | .error e => e
  | .ok _ =>
      let (r, err) := sendRequest k
      if r = [] then
        { code := 2
          err := utf8 "memfluxd injoignable (errno=" ++ digits err ++ utf8 ") — est-il lancé ?\n" }
      else { code := 0, out := cstr r ++ [10] }

theorem Cmd.code_lt (c : Cmd) : c.code < 2 ^ 32 := by cases c <;> decide

/-- Every request of the tool is of a command, and fits into two words. -/
theorem asked_spec {argv : List Bytes} {r : Request} (h : asked argv = .ok r) :
    (∃ c, Cmd.ofCode r.cmd = some c) ∧ r.cmd < 2 ^ 32 ∧ r.arg < 2 ^ 32 := by
  have hatoi : ∀ v, atoi v < 2 ^ 32 := by
    intro v
    unfold atoi
    omega
  have hcode : ∀ (c : Cmd) (n : Nat), n < 2 ^ 32 →
      (∃ c', Cmd.ofCode (⟨c.code, n⟩ : Request).cmd = some c') ∧
        (⟨c.code, n⟩ : Request).cmd < 2 ^ 32 ∧ (⟨c.code, n⟩ : Request).arg < 2 ^ 32 := by
    intro c n hn
    exact ⟨⟨c, Cmd.ofCode_code c⟩, Cmd.code_lt c, hn⟩
  unfold asked at h
  split at h
  · rename_i c rest
    split at h
    · rw [← Except.ok.inj h]
      exact hcode .status 0 (by decide)
    split at h
    · rw [← Except.ok.inj h]
      refine hcode .top _ ?_
      cases rest with
      | nil => decide
      | cons v rest => exact hatoi v
    split at h
    · rw [← Except.ok.inj h]
      exact hcode .pause 0 (by decide)
    split at h
    · rw [← Except.ok.inj h]
      exact hcode .resume 0 (by decide)
    split at h
    · rw [← Except.ok.inj h]
      exact hcode .kick 0 (by decide)
    split at h
    · rw [← Except.ok.inj h]
      exact hcode .force 0 (by decide)
    split at h
    · split at h
      · rename_i v _
        rw [← Except.ok.inj h]
        exact hcode .adjust _ (hatoi v)
      · cases h
    · cases h
  · cases h

/-! ## From the arguments to the response -/

section

variable {F : Type} [Double F]

abbrev Served (F : Type) [Double F] :=
  Serving.Turn UInt8 (Client F) (Nat × Answers F) × Option Bytes

def Served.peer (l : Served F) : Option Nat := l.1.client.map Prod.fst

/-- Among the turns of the run `es`, the last of which ends with the work `last`, only `l`
read from the connection `i`; it read the request `r`, and its response is `resp`. -/
structure AnsweredBy (libc : Libc F) (cfg : Config F) (now : Nat) (es : List (IpcEvent F))
    (s : Serving.State UInt8 (Server F)) (last : Nat × Answers F) (i : Nat) (r : Request)
    (resp : Bytes) (past : List (Served F)) (l : Served F) (rest : List (Served F)) : Prop where
  reads : ((past ++ l :: rest).filterMap fun l => l.1.client) = es.filterMap Serving.Event.client
  works : ((past ++ l :: rest).map fun l => l.1.work) =
    es.filterMap Serving.Event.work? ++ [last]
  run : Run (TurnStep libc) (start cfg now) ((past ++ l :: rest).map fun l => (turnOf l.1, l.2))
    (tick s.state last.1 last.2)
  peer : l.peer = some i
  only : ∀ l' ∈ past ++ rest, l'.peer ≠ some i
  request : (turnOf l.1).request = some r
  response : l.2 = some resp

theorem peer_only {past rest : List (Served F)} {l : Served F} {i : Nat}
    (horder : ((Serving.entries (past ++ l :: rest)).map fun e => e.1.1).Pairwise (· < ·))
    (hl : l.peer = some i) : ∀ l' ∈ past ++ rest, l'.peer ≠ some i := by
  obtain ⟨c, hc, rfl⟩ := Option.map_eq_some_iff.mp hl
  have hentry : ∀ {ls : List (Served F)} {l'}, l' ∈ ls → l'.peer = some c.1 →
      c.1 ∈ (Serving.entries ls).map fun e => e.1.1 := by
    intro ls l' hmem hpeer
    obtain ⟨c', hc', heq⟩ := Option.map_eq_some_iff.mp hpeer
    refine List.mem_map.mpr ⟨(c', l'.2), List.mem_filterMap.mpr ⟨l', hmem, ?_⟩, heq⟩
    rw [hc']
    rfl
  have hsplit : Serving.entries (past ++ l :: rest) =
      Serving.entries past ++ (c, l.2) :: Serving.entries rest := by
    unfold Serving.entries
    rw [List.filterMap_append, List.filterMap_cons_some (by rw [hc]; rfl)]
  rw [hsplit, List.map_append, List.map_cons, List.pairwise_append, List.pairwise_cons] at horder
  obtain ⟨-, ⟨hafter, -⟩, hbefore⟩ := horder
  intro l' hmem hpeer
  rcases List.mem_append.mp hmem with hmem | hmem
  · exact Nat.lt_irrefl _ (hbefore _ (hentry hmem hpeer) _ List.mem_cons_self)
  · exact Nat.lt_irrefl _ (hafter _ (hentry hmem hpeer))

theorem request_of_answer {libc : Libc F} {d : Server F} {t : Turn F} {c : Client F} {resp : Bytes}
    (hclient : t.client = some c) (hresp : (turn libc d t).2 = some resp) :
    c.bytes.length = 8 ∧ t.request = Request.ofBytes c.bytes := by
  have hserved : (handleClient libc d c).2 = some resp := by
    have hserve : (serve libc d t.client).2 = some resp := hresp
    rwa [hclient] at hserve
  refine ⟨?_, by rw [Turn.request, hclient]; rfl⟩
  rcases Option.eq_none_or_eq_some (Request.ofBytes c.bytes) with hnone | ⟨r, hsome⟩
  · rw [handleClient_of_none libc d hnone] at hserved
    cases hserved
  · unfold Request.ofBytes at hsome
    split at hsome
    · assumption
    · cases hsome

/-- The tool, run against the daemon among any other clients. Its exit code is 0 or 2. It
is 0 if anything was received, and then exactly one turn of the daemon's run read from the
tool: it read the request that the arguments ask for, and what the tool prints is its
response. -/
theorem ctl_told (libc : Libc F) (cfg : Config F) (now : Nat) {es : List (IpcEvent F)}
    {s : Serving.State UInt8 (Server F)} (hrun : Run (IpcStep libc) (started cfg now) es s)
    (last : Nat × Answers F) {argv : List Bytes} {r : Request} (hasked : asked argv = .ok r) {i : Nat}
    {c : Serving.Conn UInt8} (hc : s.conns[i]? = some c) (hwrote : c.wrote = r.bytes) {k : Dialog}
    (hk : sendRequest k = (c.received, 0)) :
    (ctl argv k).code = 2 ∧ c.received = [] ∨
      c.received ≠ [] ∧ ctl argv k = { code := 0, out := cstr c.received ++ [10] } ∧
        ∃ past l rest, AnsweredBy libc cfg now es s last i r c.received past l rest := by
  obtain ⟨-, hcmd, harg⟩ := asked_spec hasked
  by_cases hempty : c.received = []
  · left
    rw [ctl, hasked, hk]
    exact ⟨by simp only [if_pos hempty], hempty⟩
  · right
    refine ⟨hempty, ?_, ?_⟩
    · rw [ctl, hasked, hk]
      exact if_neg hempty
    · obtain ⟨ls, hturns, hreads, hworks, htold⟩ := Serving.run_turns hrun last
      obtain ⟨b, x, hmem, hprefix⟩ := htold.answered i c hc hempty
      obtain ⟨l, hl, hentry⟩ := List.mem_filterMap.mp hmem
      obtain ⟨client, hclient, hpair⟩ := Option.map_eq_some_iff.mp hentry
      obtain ⟨rfl, hreply⟩ := Prod.mk.inj hpair
      obtain ⟨past, rest, rfl⟩ := List.append_of_mem hl
      have hpeer : Served.peer l = some i := by
        rw [Served.peer, hclient]
        rfl
      have hwhole := run_turnOf hturns
      refine ⟨past, l, rest, hreads, hworks, hwhole, hpeer, peer_only htold.order hpeer, ?_, hreply⟩
      rw [List.map_append, List.map_cons] at hwhole
      obtain ⟨d, -, hlast⟩ := hwhole.split
      cases hlast with
      | cons hstep _ =>
          have hresp : (turn libc d (turnOf l.1)).2 = some c.received :=
            (turn_of_step hstep).2.trans hreply
          have hturn : (turnOf l.1).client = some { x with bytes := b } := by
            rw [turnOf, hclient]
            rfl
          obtain ⟨hlength, hrequest⟩ := request_of_answer hturn hresp
          rw [hwrote] at hprefix
          obtain rfl : b = r.bytes := hprefix.eq_of_length (hlength.trans rfl)
          rw [hrequest]
          exact Request.ofBytes_bytes hcmd harg

/-- A client that asks to pause, and `memfluxctl resume` behind it. -/
def pausedAndResumed : List (IpcEvent ℚ) :=
  [.connect, .send 0 (Request.bytes ⟨2, 0⟩), .connect, .accept 0,
    .read 0 (Request.bytes ⟨2, 0⟩) plain, .send 1 (Request.bytes ⟨3, 0⟩), .write 0,
    .work (0, Answers.still), .accept 1, .read 1 (Request.bytes ⟨3, 0⟩) plain, .write 1]

theorem ctl_told_resume :
    ∃ s : Serving.State UInt8 (Server ℚ), Run (IpcStep Libc.zeros) (started {} 0) pausedAndResumed s ∧
      ctl [ascii "memfluxctl", ascii "resume"] { reads := [ascii "resu", ascii "med"] } =
        { code := 0, out := cstr (ascii "resumed") ++ [10] } ∧
      ∃ past l rest, AnsweredBy Libc.zeros {} 0 pausedAndResumed s (0, Answers.still) 1 ⟨3, 0⟩
        (ascii "resumed") past l rest := by
  have hafter : (Serving.after (service Libc.zeros) (started {} 0) pausedAndResumed).any
      (fun s => s.conns[1]?.any fun c =>
        decide (c.wrote = Request.bytes ⟨3, 0⟩ ∧ c.received = ascii "resumed")) = true := by
    decide +kernel
  obtain ⟨s, hs, hconn⟩ := (Option.any_eq_true _ _).mp hafter
  obtain ⟨c, hc, hboth⟩ := (Option.any_eq_true _ _).mp hconn
  obtain ⟨hwrote, hreceived⟩ := of_decide_eq_true hboth
  have hrun := Serving.run_of_after hs
  have hsent : sendRequest { reads := [ascii "resu", ascii "med"] } = (c.received, 0) := by
    rw [hreceived]
    rfl
  have hasked : asked [ascii "memfluxctl", ascii "resume"] = .ok ⟨3, 0⟩ := rfl
  have htold := ctl_told Libc.zeros {} 0 hrun (0, Answers.still) hasked hc hwrote hsent
  rw [hreceived] at htold
  rcases htold with ⟨-, hempty⟩ | ⟨-, hctl, hanswered⟩
  · exact absurd hempty (by decide)
  · exact ⟨s, hrun, hctl, hanswered⟩

end

end Memflux.Daemon
