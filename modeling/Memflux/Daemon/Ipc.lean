import Memflux.Daemon.Runs
import Memflux.Lib.Peers

/-! # The daemon and its clients

The daemon is one thread behind the queue of its socket. The clients can be any programs,
in any number, that connect, write and leave when they like. What the daemon does is a run
of turns all the same, so that what holds of those holds under any interleaving.
-/

namespace Memflux.Daemon

open Memflux.Core Double Simulation
open Serving (Service Silent Told)

section

variable {F : Type} [Double F]

/-- `listen(fd, 4)`, the `read` of a request, and the loop. -/
def service (libc : Libc F) : Service UInt8 (Server F) (Client F) (Nat × Answers F) where
  room := 8
  backlog := 4
  respond d b c := handleClient libc d { c with bytes := b }
  work d k := tick d k.1 k.2

abbrev IpcEvent (F : Type) [Double F] := Serving.Event UInt8 (Client F) (Nat × Answers F)

abbrev IpcStep (libc : Libc F) := Serving.Step (service libc)

def started (cfg : Config F) (now : Nat) : Serving.State UInt8 (Server F) :=
  Serving.init (start cfg now)

def turnOf (t : Serving.Turn UInt8 (Client F) (Nat × Answers F)) : Turn F where
  client := t.client.map fun c => { c.2.2 with bytes := c.2.1 }
  now := t.work.1
  answers := t.work.2

theorem turnStep_turnOf {libc : Libc F} {d d' : Server F}
    {l : Serving.Turn UInt8 (Client F) (Nat × Answers F) × Option Bytes}
    (h : Serving.TurnStep (service libc) d l d') : TurnStep libc d (turnOf l.1, l.2) d' := by
  obtain ⟨hreply, hstate⟩ := h
  have hserve : serve libc d (turnOf l.1).client = Serving.serve (service libc) d l.1.client := by
    rw [turnOf]
    cases l.1.client <;> rfl
  show (tick (serve libc d (turnOf l.1).client).1 l.1.work.1 l.1.work.2,
    (serve libc d (turnOf l.1).client).2) = (d', l.2)
  rw [hserve, hreply, ← hstate]
  rfl

theorem run_turnOf {libc : Libc F} {d d' : Server F}
    {ls : List (Serving.Turn UInt8 (Client F) (Nat × Answers F) × Option Bytes)}
    (h : Run (Serving.TurnStep (service libc)) d ls d') :
    Run (TurnStep libc) d (ls.map fun l => (turnOf l.1, l.2)) d' := by
  induction h with
  | nil d => exact .nil d
  | cons hstep _ ih => exact .cons (turnStep_turnOf hstep) ih

/-- Under every interleaving of any clients, the daemon's state is that of a run of turns
with the requests that were read, in order, and the cycles that were run; each client has
received nothing or the response of the one turn that answered its own first bytes; a
response that a turn gave was received, or its client had left; clients are answered in
the order in which they connected; and unless it is told to stop, the daemon ends only by
writing to a client that has left. -/
theorem ipc_serializes (libc : Libc F) (cfg : Config F) (now : Nat) {es : List (IpcEvent F)}
    {s : Serving.State UInt8 (Server F)} (hrun : Run (IpcStep libc) (started cfg now) es s)
    (k : Nat × Answers F) :
    ∃ ls : List (Serving.Turn UInt8 (Client F) (Nat × Answers F) × Option Bytes),
      Run (TurnStep libc) (start cfg now) (ls.map fun l => (turnOf l.1, l.2)) (tick s.state k.1 k.2) ∧
        (ls.filterMap fun l => l.1.client) = es.filterMap Serving.Event.client ∧
          (ls.map fun l => l.1.work) = es.filterMap Serving.Event.work? ++ [k] ∧
            Told (Serving.entries ls) s := by
  obtain ⟨ls, hturns, hreads, hworks, htold⟩ := Serving.run_turns hrun k
  exact ⟨ls, run_turnOf hturns, hreads, hworks, htold⟩

/-- Inputs for a request that needs none. -/
def plain : Client ℚ := ⟨[], {}, id, perm_id, Answers.still⟩

/-- Two clients: one asks something unknown, the other to pause, and leaves before it gets
its response. -/
def impatient : List (IpcEvent ℚ) :=
  [.connect, .connect, .send 1 (Request.bytes ⟨2, 0⟩), .send 0 (Request.bytes ⟨9, 0⟩), .accept 0,
    .read 0 (Request.bytes ⟨9, 0⟩) plain, .leave 1, .write 0, .work (0, Answers.still), .accept 1,
    .read 1 (Request.bytes ⟨2, 0⟩) plain, .broken 1]

/-- The first is told that its command is unknown, the second ends the daemon. -/
theorem ipc_serializes_impatient : ∃ (s : Serving.State UInt8 (Server ℚ))
    (ls : List (Serving.Turn UInt8 (Client ℚ) (Nat × Answers ℚ) × Option Bytes)),
      Serving.after (service Libc.zeros) (started {} 0) impatient = some s ∧
        Told (Serving.entries ls) s ∧ (ls.filterMap fun l => l.1.client) =
          [(0, Request.bytes ⟨9, 0⟩, plain), (1, Request.bytes ⟨2, 0⟩, plain)] := by
  have hsome : (Serving.after (service Libc.zeros) (started {} 0) impatient).isSome = true := by
    decide +kernel
  obtain ⟨s, hs⟩ := Option.isSome_iff_exists.mp hsome
  obtain ⟨ls, -, hreads, -, htold⟩ :=
    ipc_serializes Libc.zeros {} 0 (Serving.run_of_after hs) (0, Answers.still)
  exact ⟨s, ls, hs, htold, hreads⟩

/-! ## Clients that keep the others waiting -/

/-- While the daemon reads from a client that has written nothing and stays, no request is
handled and no cycle is run, nobody who connected later gets a response, and when five
connections wait no other is taken. -/
theorem silent_client_stops (libc : Libc F) (cfg : Config F) (now : Nat) {es es' : List (IpcEvent F)}
    {s s' : Serving.State UInt8 (Server F)} (hrun : Run (IpcStep libc) (started cfg now) es s)
    {i : Nat} (hsilent : Silent s i) (hrest : Run (IpcStep libc) s es' s')
    (hstays : ∀ e ∈ es', ¬ e.Wakes i) :
    s'.state = s.state ∧ Silent s' i ∧ s'.queue.length ≤ 5 ∧
      ∀ (j : Nat) (c : Serving.Conn UInt8), i ≤ j → s'.conns[j]? = some c →
        c.received = [] ∧ c.closed = false := by
  obtain ⟨hstate, hsilent'⟩ := hsilent.run hrest hstays
  have hinv := Serving.inv_of_run (hrun.append hrest)
  exact ⟨hstate, hsilent', hinv.room, hsilent'.unanswered hinv⟩

/-- The first client says nothing; the second one has sent its request and waits. -/
theorem silent_client_stops_one : ∃ s s' : Serving.State UInt8 (Server ℚ), Silent s 0 ∧
    Run (IpcStep Libc.zeros) s [.connect, .send 1 (Request.bytes ⟨7, 0⟩)] s' ∧ s'.state = s.state ∧
      Silent s' 0 := by
  let s : Serving.State UInt8 (Server ℚ) := ⟨start {} 0, .reading 0, false, [], [{}]⟩
  have hrun : Run (IpcStep Libc.zeros) (started {} 0) [.connect, .accept 0] s :=
    Serving.run_of_after rfl
  have hrest : Run (IpcStep Libc.zeros) s [.connect, .send 1 (Request.bytes ⟨7, 0⟩)]
      ⟨start {} 0, .reading 0, false, [1], [{}, { wrote := Request.bytes ⟨7, 0⟩ }]⟩ :=
    Serving.run_of_after rfl
  have hsilent : Silent s 0 := ⟨rfl, rfl, {}, rfl, rfl, rfl⟩
  have hstays : ∀ e ∈ [Serving.Event.connect, .send 1 (Request.bytes ⟨7, 0⟩)],
      ¬ (e : IpcEvent ℚ).Wakes 0 := by
    simp [Serving.Event.Wakes]
  obtain ⟨hstate, hstill, -⟩ := silent_client_stops Libc.zeros {} 0 hrun hsilent hrest hstays
  exact ⟨_, _, hsilent, hrest, hstate, hstill⟩

/-- A client in the queue waits for at most five turns. -/
theorem queue_waits (libc : Libc F) (cfg : Config F) (now : Nat) {es es' : List (IpcEvent F)}
    {s s' : Serving.State UInt8 (Server F)} (hrun : Run (IpcStep libc) (started cfg now) es s)
    (hrest : Run (IpcStep libc) s es' s') {i : Nat} (hi : i ∈ s.queue) (hi' : i ∈ s'.queue) :
    (es'.filterMap Serving.Event.work?).length ≤ 5 :=
  Serving.waits (Serving.inv_of_run hrun) hrest hi hi'

theorem queue_waits_one : ∃ s s' : Serving.State UInt8 (Server ℚ), 1 ∈ s.queue ∧ 1 ∈ s'.queue ∧
    Run (IpcStep Libc.zeros) s [.accept 0, .leave 0, .read 0 [] plain, .work (0, Answers.still)] s' ∧
      [(0, Answers.still)].length ≤ 5 := by
  let s : Serving.State UInt8 (Server ℚ) := ⟨start {} 0, .top, false, [0, 1], [{}, {}]⟩
  have hrun : Run (IpcStep Libc.zeros) (started {} 0) [.connect, .connect] s :=
    Serving.run_of_after rfl
  have hrest : Run (IpcStep Libc.zeros) s
      [.accept 0, .leave 0, .read 0 [] plain, .work (0, Answers.still)]
      ⟨tick (start {} 0) 0 Answers.still, .top, false, [1], [{ left := true, closed := true }, {}]⟩ :=
    Serving.run_of_after rfl
  have hin := List.mem_cons_of_mem 0 (List.mem_singleton_self 1)
  exact ⟨_, _, hin, List.mem_singleton_self 1, hrest,
    queue_waits Libc.zeros {} 0 hrun hrest hin (List.mem_singleton_self 1)⟩

/-! ## Clients that wait for their response -/

theorem handle_ne_nil (libc : Libc F) (d : Server F) (c : Client F) (r : Request) :
    (handle libc d c r).2 ≠ [] := by
  unfold handle
  split
  · rw [statusReply_eq]
    exact List.cons_ne_nil 99 _
  · exact List.append_ne_nil_of_left_ne_nil (by rw [topHeader_fits]; decide) _
  · show ascii "paused" ≠ []
    decide
  · show ascii "resumed" ≠ []
    decide
  · show ascii "cycle kicked" ≠ []
    decide
  · exact List.cons_ne_nil 102 _
  · dsimp only [adjust]
    split <;> dsimp only <;> decide
  · show ascii "unknown cmd" ≠ []
    decide

theorem service_answers (libc : Libc F) : Serving.Answers (service libc) where
  room := Nat.succ_pos 7
  respond d b c hlength := by
    have hwhole : Request.ofBytes b = some ⟨ofWord (b.take 4), ofWord (b.drop 4)⟩ := if_pos hlength
    exact ⟨_, _, handleClient_of_some libc d (c := { c with bytes := b }) hwhole,
      handle_ne_nil libc d _ _⟩

/-- A kernel that answers nothing. -/
def mute : Answers F where
  procs := []
  distinct := List.nodup_nil
  self := 1
  damonAvailable := false
  damonEnabled := false
  damonSwitched := false
  ebpfAvailable := false
  ebpfLoads := false
  ebpfLoaded := false
  psi := {}
  mem := {}
  faults := []
  sample _ := {}
  sort := id
  sort_perm := perm_id
  attempt _ := ⟨false, 0, [], 0, room_nil⟩
  psiLater := {}
  cgroupAvailable := false
  reclaimOpens := false
  reclaimFails := false

/-- When every client writes its whole request at once and stays until its connection is
closed, as `send_request` does, and nobody stops the daemon: it is not killed, a closed
connection has a response, and whatever is done first, after finitely many steps without
new connections and idle turns all the clients have their responses and have left. -/
theorem clients_answered (libc : Libc F) (cfg : Config F) (now : Nat) {es : List (IpcEvent F)}
    {s : Serving.State UInt8 (Server F)}
    (hrun : Run (Serving.CourteousStep (service libc)) (started cfg now) es s) :
    s.pc ≠ .gone ∧ (∀ c ∈ s.conns, c.closed = true → c.received ≠ []) ∧
      ∀ es' s', Run (Serving.ForwardStep (service libc)) s es' s' →
        es'.length ≤ 6 * s.conns.length + 3 ∧
          ((∀ e s'', ¬ Serving.ForwardStep (service libc) s' e s'') →
            ∀ c ∈ s'.conns, c.left = true ∧ c.received ≠ []) := by
  have hclient : Nonempty (Client F) := ⟨⟨[], {}, id, perm_id, mute⟩⟩
  have hwork : Nonempty (Nat × Answers F) := ⟨(0, mute)⟩
  exact Serving.everybody_answered (service_answers libc) hrun

/-- Two clients; the first one is answered, and the second one after it. -/
theorem clients_answered_two : ∃ s s' : Serving.State UInt8 (Server ℚ),
    Run (Serving.CourteousStep (service Libc.zeros)) (started {} 0)
      [.connect, .connect, .send 1 (Request.bytes ⟨3, 0⟩), .send 0 (Request.bytes ⟨2, 0⟩), .accept 0,
        .read 0 (Request.bytes ⟨2, 0⟩) plain, .write 0] s ∧
      s.pc ≠ .gone ∧ (∀ c ∈ s.conns, c.closed = true → c.received ≠ []) ∧
        Run (Serving.ForwardStep (service Libc.zeros)) s
          [.leave 0, .work (0, Answers.still), .accept 1, .read 1 (Request.bytes ⟨3, 0⟩) plain,
            .write 1, .work (0, Answers.still), .leave 1] s' ∧
          ∀ c ∈ s'.conns, c.left = true ∧ c.received ≠ [] := by
  let s : Serving.State UInt8 (Server ℚ) :=
    ⟨{ start {} 0 with paused := true }, .working, false, [1],
      [{ wrote := Request.bytes ⟨2, 0⟩, received := ascii "paused", closed := true },
        { wrote := Request.bytes ⟨3, 0⟩ }]⟩
  have hrun : Run (Serving.CourteousStep (service Libc.zeros)) (started {} 0)
      [.connect, .connect, .send 1 (Request.bytes ⟨3, 0⟩), .send 0 (Request.bytes ⟨2, 0⟩), .accept 0,
        .read 0 (Request.bytes ⟨2, 0⟩) plain, .write 0] s := by
    refine .cons ⟨Serving.step_of_next rfl, trivial⟩ ?_
    refine .cons ⟨Serving.step_of_next rfl, trivial⟩ ?_
    refine .cons ⟨Serving.step_of_next rfl, rfl, fun c hc => by rw [← Option.some.inj hc]⟩ ?_
    refine .cons ⟨Serving.step_of_next rfl, rfl, fun c hc => by rw [← Option.some.inj hc]⟩ ?_
    refine .cons ⟨Serving.step_of_next rfl, trivial⟩ ?_
    refine .cons ⟨Serving.step_of_next rfl, trivial⟩ ?_
    exact .single ⟨Serving.step_of_next rfl, trivial⟩
  let waiting : Server ℚ := tick { start {} 0 with paused := true } 0 Answers.still
  have hrest : Run (Serving.ForwardStep (service Libc.zeros)) s
      [.leave 0, .work (0, Answers.still), .accept 1, .read 1 (Request.bytes ⟨3, 0⟩) plain,
        .write 1, .work (0, Answers.still), .leave 1]
      ⟨tick { waiting with paused := false } 0 Answers.still, .top, false, [],
        [{ wrote := Request.bytes ⟨2, 0⟩, received := ascii "paused", left := true, closed := true },
          { wrote := Request.bytes ⟨3, 0⟩, received := ascii "resumed", left := true,
            closed := true }]⟩ := by
    refine .cons ⟨⟨Serving.step_of_next rfl, fun c hc => by rw [← Option.some.inj hc]⟩, trivial⟩ ?_
    refine .cons ⟨⟨Serving.step_of_next rfl, trivial⟩, trivial⟩ ?_
    refine .cons ⟨⟨Serving.step_of_next rfl, trivial⟩, trivial⟩ ?_
    refine .cons ⟨⟨Serving.step_of_next rfl, trivial⟩, trivial⟩ ?_
    refine .cons ⟨⟨Serving.step_of_next rfl, trivial⟩, trivial⟩ ?_
    refine .cons ⟨⟨Serving.step_of_next rfl, trivial⟩, trivial⟩ ?_
    refine .single ⟨⟨Serving.step_of_next rfl, fun c hc => ?_⟩, trivial⟩
    have hclosed := congrArg Serving.Conn.closed (Option.some.inj hc)
    exact hclosed.symm
  obtain ⟨halive, htold, hforward⟩ := clients_answered Libc.zeros {} 0 hrun
  refine ⟨s, _, hrun, halive, htold, hrest, (hforward _ _ hrest).2 ?_⟩
  exact fun e s'' => Serving.not_forward rfl rfl rfl (by simp)

end

end Memflux.Daemon
