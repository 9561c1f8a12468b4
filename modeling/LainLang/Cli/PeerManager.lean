import LainLang.Lib.Run
import LainLang.Js.Text
import Mathlib.Data.List.Nodup
import Mathlib.Tactic.Linarith
/-!
# The peer manager

The manager numbers its peers by counting them. `new` takes the number before
`create_peer` is awaited and registers the peer after it, and lines are handled
meanwhile, so a run is a list of lines and of creations that return or fail, in
any order.
-/
open LainLang.Lib LainLang.Js

namespace LainLang.Cli

/-- The port of the first peer. -/
def DEFAULT_HTTP_PORT : ℤ := 8766

/-- The port every peer multicasts on unless told otherwise. -/
def DEFAULT_MULTICAST_PORT : ℤ := 8765

/-- The peer that a new one connects to unless told otherwise. -/
def DEFAULT_HOST_PEER : String := "http://localhost:8765/gun"

/-- A peer; closing it leaves it in the list, inactive. -/
structure PeerInstance where
  id : ℤ
  httpPort : ℤ
  multicastPort : ℤ
  hostPeer : String
  active : Bool
deriving DecidableEq, Repr

/-- The peers in the order they were registered, and the one commands go to. -/
structure PeerManagerState where
  peers : List PeerInstance
  currentPeerId : Option ℤ
deriving DecidableEq, Repr

/-- A call of `create_peer` that has not returned. -/
structure Creation where
  peerId : ℤ
  defaultHttpPort : ℤ
  defaultMulticastPort : ℤ
  defaultHostPeer : String
deriving DecidableEq, Repr

/-- What is typed at the prompts of `create_peer`. -/
structure Answers where
  httpPort : String
  multicastPort : String
  hostPeer : String

/-- The number that was typed, or the default where what was typed is none. -/
def prompt_number (answer : String) (defaultValue : ℤ) : ℤ := (parseInt (trim answer)).getD defaultValue

/-- The peer that a call returns, from what was typed at its prompts. -/
def create_peer (creation : Creation) (answers : Answers) : PeerInstance where
  id := creation.peerId
  httpPort := prompt_number answers.httpPort creation.defaultHttpPort
  multicastPort := prompt_number answers.multicastPort creation.defaultMulticastPort
  hostPeer := if trim answers.hostPeer = "" then creation.defaultHostPeer else trim answers.hostPeer
  active := true

/-- `handle_new_command` up to its `await`. -/
def new_creation (state : PeerManagerState) (parts : List String) : Creation where
  peerId := state.peers.length + 1
  defaultHttpPort := ((parts[1]?).bind parseInt).getD
    (state.peers.getLast?.elim DEFAULT_HTTP_PORT (·.httpPort + 1))
  defaultMulticastPort := DEFAULT_MULTICAST_PORT
  defaultHostPeer := DEFAULT_HOST_PEER

/-- What `initialize_first_peer` awaits. -/
def first_creation : Creation := ⟨1, DEFAULT_HTTP_PORT, DEFAULT_MULTICAST_PORT, DEFAULT_HOST_PEER⟩

/-- What `handle_new_command` and `initialize_first_peer` do after their `await`. -/
def register (state : PeerManagerState) (peer : PeerInstance) : PeerManagerState :=
  ⟨state.peers ++ [peer], some peer.id⟩

/-- The test of `peers.find`. -/
def isPeer (peerId : ℤ) (p : PeerInstance) : Bool := p.id = peerId && p.active

/-- `use <id>` selects a peer that is active. -/
def handle_use_command (state : PeerManagerState) (parts : List String) : PeerManagerState :=
  ((parts[1]?).bind parseInt).elim state fun peerId =>
    if state.peers.any (isPeer peerId) then { state with currentPeerId := some peerId } else state

/-- `peer.active = false` of the peer that is found. -/
def deactivate (peerId : ℤ) : List PeerInstance → List PeerInstance
  | [] => []
  | p :: peers => if isPeer peerId p then { p with active := false } :: peers else p :: deactivate peerId peers

/-- The peer becomes inactive; if it was the current one, the first active one is. -/
def close_peer (state : PeerManagerState) (peerId : ℤ) : PeerManagerState :=
  let peers := deactivate peerId state.peers
  ⟨peers, if state.currentPeerId = some peerId then (peers.find? (·.active)).map (·.id) else state.currentPeerId⟩

/-- `close <id>` closes a peer that is active. -/
def handle_close_command (state : PeerManagerState) (parts : List String) : PeerManagerState :=
  ((parts[1]?).bind parseInt).elim state fun peerId =>
    if state.peers.any (isPeer peerId) then close_peer state peerId else state

/-- The manager with the creations it waits for. `closed` once `exit` ended the
process. -/
structure Manager where
  state : PeerManagerState
  creations : List Creation
  closed : Bool

/-- `run_client` when `initialize_first_peer` waits for the first peer. -/
def run_client : Manager := ⟨⟨[], none⟩, [first_creation], false⟩

/-- One line, by its first word. `new` only starts a creation. -/
def runCommand (m : Manager) (command : String) (parts : List String) : Manager :=
  if command = "new" ∨ command = "n" then { m with creations := m.creations ++ [new_creation m.state parts] }
  else if command = "use" ∧ 1 < parts.length then { m with state := handle_use_command m.state parts }
  else if command = "close" ∧ 1 < parts.length then { m with state := handle_close_command m.state parts }
  else if command = "exit" ∨ command = "quit" ∨ command = "q" then { m with closed := true }
  -- `list`, `/env` and code to execute leave the peers alone.
  else m

/-- The `line` handler. Lower case outside ASCII never spells a command. -/
def handle_line (m : Manager) (line : String) : Manager :=
  let input := trim line
  if input = "" then m
  else
    let parts := splitSpaces input
    runCommand m (toLowerCase (parts.headD "")) parts

/-- A line, or the `i`th of the creations that are waited for returns or fails. -/
inductive Event where
  | line (line : String)
  | created (i : ℕ) (answers : Answers)
  | failed (i : ℕ)

/-- Nothing happens once the process has ended. -/
def step (m : Manager) (e : Event) : Manager :=
  if m.closed then m
  else match e with
    | .line line => handle_line m line
    | .created i answers => (m.creations[i]?).elim m fun creation =>
      { m with state := register m.state (create_peer creation answers), creations := m.creations.eraseIdx i }
    | .failed i => { m with creations := m.creations.eraseIdx i }

/-! ## What is asked of the state -/

/-- Ids are pairwise distinct, and the current peer is exactly one active peer. -/
structure Valid (state : PeerManagerState) : Prop where
  distinct : (state.peers.map (·.id)).Nodup
  current : ∀ id, state.currentPeerId = some id → (state.peers.filter (isPeer id)).length = 1

/-- A creation that returns is for the number that comes next: no peer was
registered since it started. -/
def RegistersNext (m : Manager) (e : Event) : Prop :=
  m.closed = false → ∀ i answers creation, e = .created i answers → m.creations[i]? = some creation →
    creation.peerId = m.state.peers.length + 1

/-! ## The handlers -/

theorem map_id_deactivate (peerId : ℤ) (peers : List PeerInstance) :
    (deactivate peerId peers).map (·.id) = peers.map (·.id) := by
  induction peers with
  | nil => rfl
  | cons p peers ih =>
    rw [deactivate]
    split
    · rfl
    · rw [List.map_cons, ih, List.map_cons]

theorem any_deactivate {peerId id : ℤ} {peers : List PeerInstance} (hne : id ≠ peerId) :
    (deactivate peerId peers).any (isPeer id) = peers.any (isPeer id) := by
  induction peers with
  | nil => rfl
  | cons p peers ih =>
    rw [deactivate]
    split
    · rename_i hp
      have hid : p.id ≠ id := by
        rintro rfl
        simp only [isPeer, Bool.and_eq_true, decide_eq_true_eq] at hp
        exact hne hp.1
      simp [isPeer, hid]
    · rw [List.any_cons, ih, List.any_cons]

/-- The current peer is among the active ones. -/
def CurrentActive (state : PeerManagerState) : Prop :=
  ∀ id, state.currentPeerId = some id → state.peers.any (isPeer id) = true

theorem use_current {state : PeerManagerState} (h : CurrentActive state) (parts : List String) :
    CurrentActive (handle_use_command state parts) := by
  unfold handle_use_command
  cases (parts[1]?).bind parseInt with
  | none => exact h
  | some peerId =>
    rw [Option.elim_some]
    split
    · rename_i hpeer
      intro id hid
      obtain rfl := Option.some.inj hid
      exact hpeer
    · exact h

theorem use_peers (state : PeerManagerState) (parts : List String) :
    (handle_use_command state parts).peers = state.peers := by
  unfold handle_use_command
  cases (parts[1]?).bind parseInt with
  | none => rfl
  | some peerId =>
    rw [Option.elim_some]
    split <;> rfl

theorem close_current {state : PeerManagerState} (h : CurrentActive state) (parts : List String) :
    CurrentActive (handle_close_command state parts) := by
  unfold handle_close_command
  cases (parts[1]?).bind parseInt with
  | none => exact h
  | some peerId =>
    rw [Option.elim_some]
    split
    · intro id hid
      rw [close_peer] at hid ⊢
      dsimp only at hid ⊢
      split at hid
      · -- The first peer that is still active.
        obtain ⟨p, hp, rfl⟩ := Option.map_eq_some_iff.1 hid
        exact List.any_eq_true.2 ⟨p, List.mem_of_find?_eq_some hp, by simpa [isPeer] using List.find?_some hp⟩
      · rename_i hother
        have hne : id ≠ peerId := by
          rintro rfl
          exact hother hid
        rw [any_deactivate hne]
        exact h id hid
    · exact h

theorem close_ids (state : PeerManagerState) (parts : List String) :
    (handle_close_command state parts).peers.map (·.id) = state.peers.map (·.id) := by
  unfold handle_close_command
  cases (parts[1]?).bind parseInt with
  | none => rfl
  | some peerId =>
    rw [Option.elim_some]
    split
    · exact map_id_deactivate peerId state.peers
    · rfl

theorem register_current (state : PeerManagerState) (creation : Creation) (answers : Answers) :
    CurrentActive (register state (create_peer creation answers)) := by
  intro id hid
  obtain rfl := Option.some.inj hid
  simp [register, isPeer, create_peer]

/-! ## The invariant -/

/-- The ids are 1, 2, .. in the order of the peers, and every creation that is
waited for has one of them or the next. -/
structure Numbered (m : Manager) : Prop where
  ids : m.state.peers.map (·.id) = (List.range m.state.peers.length).map (fun i : ℕ => (i : ℤ) + 1)
  creations : ∀ creation ∈ m.creations, 1 ≤ creation.peerId ∧ creation.peerId ≤ m.state.peers.length + 1
  current : CurrentActive m.state

theorem Numbered.distinct {m : Manager} (h : Numbered m) : (m.state.peers.map (·.id)).Nodup := by
  rw [h.ids]
  refine List.Nodup.map ?_ List.nodup_range
  intro i j hij
  simpa using hij

theorem Numbered.valid {m : Manager} (h : Numbered m) : Valid m.state := by
  refine ⟨h.distinct, fun id hid => ?_⟩
  have hsome : m.state.peers.any (isPeer id) = true := h.current id hid
  have hone := List.nodup_iff_count_le_one.1 h.distinct id
  -- The active peers with the id are among the peers with the id.
  have hle : (m.state.peers.filter (isPeer id)).length ≤ (m.state.peers.map (·.id)).count id := by
    rw [← List.countP_eq_length_filter, List.count, List.countP_map]
    refine List.countP_mono_left fun p _ hp => ?_
    simp only [isPeer, Bool.and_eq_true, decide_eq_true_eq] at hp
    simp [hp.1]
  have hpos : 0 < (m.state.peers.filter (isPeer id)).length := by
    rw [← List.countP_eq_length_filter, List.countP_pos_iff]
    simpa using hsome
  omega

/-- Two states with peers of the same ids. -/
theorem Numbered.of_ids {m m' : Manager} (h : Numbered m)
    (hids : m'.state.peers.map (·.id) = m.state.peers.map (·.id)) (hcreations : m'.creations = m.creations)
    (hcurrent : CurrentActive m'.state) : Numbered m' := by
  have hlen : m'.state.peers.length = m.state.peers.length := by
    simpa using congrArg List.length hids
  refine ⟨by rw [hids, hlen, h.ids], ?_, hcurrent⟩
  rw [hcreations, hlen]
  exact h.creations

theorem Numbered.command {m : Manager} (h : Numbered m) (command : String) (parts : List String) :
    Numbered (runCommand m command parts) := by
  unfold runCommand
  split_ifs
  · refine ⟨h.ids, fun creation hmem => ?_, h.current⟩
    rcases List.mem_append.1 hmem with hmem | hmem
    · exact h.creations creation hmem
    · obtain rfl := List.mem_singleton.1 hmem
      dsimp only [new_creation]
      omega
  · exact h.of_ids (by rw [use_peers]) rfl (use_current h.current parts)
  · exact h.of_ids (close_ids ..) rfl (close_current h.current parts)
  · exact ⟨h.ids, h.creations, h.current⟩
  · exact h

theorem Numbered.line {m : Manager} (h : Numbered m) (line : String) : Numbered (handle_line m line) := by
  unfold handle_line
  dsimp only
  split
  · exact h
  · exact h.command _ _

theorem Numbered.register {m : Manager} (h : Numbered m) (i : ℕ) {creation : Creation}
    (hnext : creation.peerId = m.state.peers.length + 1) (answers : Answers) :
    Numbered { m with
      state := Cli.register m.state (create_peer creation answers), creations := m.creations.eraseIdx i } := by
  refine ⟨?_, fun other hmem => ?_, register_current _ _ _⟩
  · simp [Cli.register, List.range_succ, h.ids, create_peer, hnext]
  · have := h.creations other (List.mem_of_mem_eraseIdx hmem)
    simp only [Cli.register, List.length_append, List.length_singleton, Nat.cast_add, Nat.cast_one]
    omega

theorem step_created {m : Manager} (hopen : m.closed = false) {i : ℕ} {answers : Answers} {creation : Creation}
    (hi : m.creations[i]? = some creation) : step m (.created i answers) =
      { m with state := register m.state (create_peer creation answers), creations := m.creations.eraseIdx i } := by
  simp [step, hopen, hi]

theorem Numbered.step {m : Manager} (h : Numbered m) {e : Event} (hnext : RegistersNext m e) :
    Numbered (step m e) := by
  cases hclosed : m.closed with
  | true =>
    have hsame : Cli.step m e = m := by simp [Cli.step, hclosed]
    rwa [hsame]
  | false =>
    cases e with
    | line line =>
      rw [Cli.step, if_neg (by simp [hclosed])]
      exact h.line line
    | created i answers =>
      cases hi : m.creations[i]? with
      | none =>
        have hsame : Cli.step m (.created i answers) = m := by simp [Cli.step, hi]
        rwa [hsame]
      | some creation =>
        rw [step_created hclosed hi]
        exact h.register i (hnext hclosed i answers creation rfl hi) answers
    | failed i =>
      rw [Cli.step, if_neg (by simp [hclosed])]
      exact ⟨h.ids, fun creation hmem => h.creations creation (List.mem_of_mem_eraseIdx hmem), h.current⟩

/-- A creation with a number that is taken gives two peers one id. -/
theorem Numbered.next_of_valid {m : Manager} (h : Numbered m) {e : Event} (hvalid : Valid (Cli.step m e).state) :
    RegistersNext m e := by
  rintro hclosed i answers creation rfl hi
  rw [step_created hclosed hi] at hvalid
  have hdistinct := hvalid.distinct
  simp only [Cli.register, List.map_append, List.map_singleton, create_peer] at hdistinct
  have hnew : creation.peerId ∉ m.state.peers.map (·.id) := by
    have := List.nodup_append.1 hdistinct
    intro hmem
    exact this.2.2 _ hmem _ (List.mem_singleton_self _) rfl
  obtain ⟨hlow, hhigh⟩ := h.creations creation (List.mem_of_getElem? hi)
  by_contra hne
  refine hnew ?_
  rw [h.ids, List.mem_map]
  exact ⟨(creation.peerId - 1).toNat, List.mem_range.2 (by omega), by omega⟩

theorem numbered_run_client : Numbered run_client := by
  refine ⟨rfl, fun creation hmem => ?_, fun id hid => by simp [run_client] at hid⟩
  obtain rfl := List.mem_singleton.1 hmem
  simp [first_creation, run_client]

/-- The peers keep distinct ids and the current one stays one active peer in
exactly the runs that register no peer between the start of a creation and its
return. -/
theorem peers_valid_iff (events : List Event) :
    Throughout step run_client events (fun m => Valid m.state) ↔ Stepwise step run_client events RegistersNext :=
  throughout_iff_of_invariant numbered_run_client (fun _ h => h.valid) (fun _ _ h hnext => h.step hnext)
    fun _ _ h hvalid => h.next_of_valid hvalid

/-- `new` while the first peer is set up, then both peers are there. -/
def newAtStartup : List Event := [.line "new 9000", .created 0 ⟨"", "", ""⟩, .created 0 ⟨"", "", ""⟩]

theorem new_at_startup_doubles : ¬ Throughout step run_client newAtStartup (fun m => Valid m.state) := by
  intro h
  have hids : ((run step run_client newAtStartup).state.peers.map (·.id)) = [1, 1] := by decide
  have := h.last.distinct
  rw [hids] at this
  simp at this

end LainLang.Cli
