import NeuralKV.Lib.Framing
import NeuralKV.Raft.NodeRuns

/-!
# Votes and the file that remembers them

`PersistStateLocked` writes `current_term_` and `voted_for_` to `state.bin` and swallows every
error: "best-effort; a lost persist just risks re-voting after a crash".  This module runs the
election side of one node with the file as bytes, with each `open` and `write` free to fail and
with restarts between calls.

* `PersistedNode` — `PersistStateLocked`, `BecomeFollowerLocked`, `HandleRequestVote`,
  `HandleAppendEntries`, `StartElection` and the constructor over the bytes of `state.bin`.
  `step_next` shows that with nothing failing they are the node of `NeuralKV.Raft.NodeRuns`.
* `one_vote_per_term` — **the node grants at most one vote in a term**, its own included, in every
  run in which an `open` that fails is made up for by a later one before the process ends.  A failed
  `write` does no harm: it leaves a file that `LoadPersistedState` refuses.
* `lost_persist_votes_twice` — after a failed `open` and a restart it can vote twice.
-/

set_option autoImplicit false

namespace NeuralKV

open Framing
open Runs (anyStep exists_run)

/-! ## The file -/

/-- What `open` and `write` do in one call of `PersistStateLocked`. -/
inductive PersistOutcome where
  | complete
  | openFailed
  | writeFailed (written : Nat)
  deriving DecidableEq, Repr

/-- The 12 bytes of `state.bin`. -/
def encodeState (st : PersistentState) : Bytes := toBE 8 st.currentTerm ++ toBE 4 st.votedFor

/-- `state.bin` after `PersistStateLocked`; `none` while there is no such file.  A successful
`open` has truncated the old contents. -/
def writeStateFile (file : Option Bytes) (st : PersistentState) : PersistOutcome → Option Bytes
  | .complete => some (encodeState st)
  | .openFailed => file
  | .writeFailed written => some ((encodeState st).take written)

/-- `RaftNode::LoadPersistedState`. -/
def readStateFile (statePath : String) : Option Bytes → Except Status PersistentState
  | none => .ok {}
  | some bytes =>
    let buf := bytes.take 12
    if buf.length ≠ 12 then .error ⟨.kIOError, "raft state file truncated: " ++ statePath⟩
    else .ok ⟨ofBE (buf.take 8), ofBE (buf.drop 8)⟩

/-- The fields are 64 and 32 bits wide. -/
def PersistentState.Fits (st : PersistentState) : Prop :=
  st.currentTerm < 2 ^ 64 ∧ st.votedFor < 2 ^ 32

theorem encodeState_length (st : PersistentState) : (encodeState st).length = 12 := by
  simp [encodeState]

/-- **What was written is read back.** -/
theorem readStateFile_encodeState (path : String) {st : PersistentState} (h : st.Fits) :
    readStateFile path (some (encodeState st)) = .ok st := by
  have htake : (encodeState st).take 12 = encodeState st :=
    List.take_of_length_le (Nat.le_of_eq (encodeState_length st))
  simp only [readStateFile, htake, encodeState_length, ne_eq, not_true_eq_false, if_false]
  rw [encodeState, List.take_left' (toBE_length _ _), List.drop_left' (toBE_length _ _),
    ofBE_toBE_of_lt h.1, ofBE_toBE_of_lt h.2]

/-- A file that a failed `write` left behind is refused. -/
theorem readStateFile_short {path : String} {bytes : Bytes} (h : bytes.length < 12)
    (p : PersistentState) : readStateFile path (some bytes) ≠ .ok p := by
  have hlen : (bytes.take 12).length ≠ 12 := by
    rw [List.length_take]
    omega
  simp only [readStateFile, hlen, ne_eq, not_false_eq_true, if_true]
  intro heq
  cases heq

/-! ## The node -/

/-- A node with its `state.bin`.  The field `stateBin` of `raft`, the file as it would be if
nothing failed, is not used.  `openFailed` is a history variable: the `open` of the last call of
`PersistStateLocked` failed. -/
structure PersistedNode where
  dataDir : String
  raft : RaftNode
  stateFile : Option Bytes := none
  openFailed : Bool := false

namespace PersistedNode

/-- `state_path_`. -/
def statePath (node : PersistedNode) : String := node.dataDir ++ "/raft/state.bin"

/-- `RaftNode::PersistStateLocked`. -/
def persistState (node : PersistedNode) (outcome : PersistOutcome) : PersistedNode :=
  { node with
    stateFile :=
      writeStateFile node.stateFile ⟨node.raft.currentTerm, node.raft.votedFor⟩ outcome
    openFailed := decide (outcome = .openFailed) }

/-- `RaftNode::BecomeFollowerLocked`. -/
def becomeFollower (node : PersistedNode) (term : Nat) (outcome : PersistOutcome) :
    PersistedNode :=
  persistState
    { node with
      raft :=
        { node.raft with
          currentTerm := term
          votedFor := 0
          state := .kFollower
          leaderId := 0
          lastAckTime := [] } }
    outcome

/-- `RaftNode::HandleRequestVote`; `adopt` and `grant` are its two calls of
`PersistStateLocked`. -/
def handleRequestVote (node : PersistedNode) (req : RequestVoteRequest)
    (adopt grant : PersistOutcome) : PersistedNode × RequestVoteResponse :=
  let node :=
    if node.raft.currentTerm < req.term then node.becomeFollower req.term adopt else node
  if req.term < node.raft.currentTerm then (node, ⟨node.raft.currentTerm, false⟩)
  else if (node.raft.votedFor = 0 ∨ node.raft.votedFor = req.candidateId) ∧
      node.raft.challengerUpToDate req then
    (persistState { node with raft := { node.raft with votedFor := req.candidateId } } grant,
      ⟨node.raft.currentTerm, true⟩)
  else (node, ⟨node.raft.currentTerm, false⟩)

/-- `RaftNode::HandleAppendEntries`. -/
def handleAppendEntries (node : PersistedNode) (req : AppendEntriesRequest)
    (adopt : PersistOutcome) : PersistedNode × AppendEntriesResponse :=
  if req.term < node.raft.currentTerm then (node, ⟨node.raft.currentTerm, false⟩)
  else
    let node :=
      if node.raft.currentTerm < req.term then node.becomeFollower req.term adopt
      else if node.raft.state = .kCandidate then
        { node with raft := { node.raft with state := .kFollower } }
      else node
    let node := { node with raft := { node.raft with leaderId := req.leaderId } }
    if node.raft.prevMismatch req then (node, ⟨node.raft.currentTerm, false⟩)
    else
      let raft :=
        { node.raft with log := RaftNode.appendLoop node.raft.log req.prevLogIndex req.entries }
      ({ node with raft := raft.followCommit req.leaderCommit }, ⟨node.raft.currentTerm, true⟩)

/-- First lock scope of `StartElection`; `++current_term_` wraps at 64 bits. -/
def startElection (config : ClusterConfig) (node : PersistedNode) (outcome : PersistOutcome) :
    PersistedNode :=
  persistState
    { node with
      raft :=
        { node.raft with
          currentTerm := (node.raft.currentTerm + 1) % 2 ^ 64
          votedFor := config.localNodeId
          state := .kCandidate
          leaderId := 0 } }
    outcome

/-- Lock scope of `StartElection` for one reply. -/
def voteReply (node : PersistedNode) (term : Nat) (resp : RequestVoteResponse)
    (adopt : PersistOutcome) : PersistedNode :=
  if node.raft.state ≠ .kCandidate ∨ node.raft.currentTerm ≠ term then node
  else if node.raft.currentTerm < resp.term then node.becomeFollower resp.term adopt
  else node

/-- Last lock scope of `StartElection`. -/
def finishElection (config : ClusterConfig) (node : PersistedNode) (term votes : Nat) :
    PersistedNode :=
  { node with raft := (node.raft.finishElection config term votes).1 }

/-- A new process on the node's files; `none` when a reader rejects one of them. -/
def restart (node : PersistedNode) : Option PersistedNode :=
  match readStateFile node.statePath node.stateFile, node.raft.restart with
  | .ok persisted, some raft =>
    some
      { node with
        raft :=
          { raft with
            currentTerm := persisted.currentTerm
            votedFor := persisted.votedFor } }
  | _, _ => none

end PersistedNode

/-! ## Runs -/

/-- The calls of the election side, with all they get from outside. -/
inductive VotingAction where
  | requestVote (req : RequestVoteRequest) (adopt grant : PersistOutcome)
  | appendEntries (req : AppendEntriesRequest) (adopt : PersistOutcome)
  | startElection (stand : PersistOutcome)
  | voteReply (term : Nat) (resp : RequestVoteResponse) (adopt : PersistOutcome)
  | finishElection (term votes : Nat)
  | restart

/-- `granted` is a history variable: the term and the candidate of every vote, the node's own
included. -/
structure Voter where
  node : PersistedNode
  granted : List (Nat × NodeId) := []

namespace Voter

def fresh (dataDir : String) (hash : Bytes → Nat) : Voter where
  node := { dataDir, raft := RaftNode.fresh hash }

def step (config : ClusterConfig) (s : Voter) : VotingAction → Option Voter
  | .requestVote req adopt grant =>
    let out := s.node.handleRequestVote req adopt grant
    some
      { node := out.1
        granted :=
          if out.2.voteGranted then s.granted ++ [(out.2.term, req.candidateId)] else s.granted }
  | .appendEntries req adopt => some ⟨(s.node.handleAppendEntries req adopt).1, s.granted⟩
  | .startElection stand =>
    let node := s.node.startElection config stand
    some ⟨node, s.granted ++ [(node.raft.currentTerm, config.localNodeId)]⟩
  | .voteReply term resp adopt => some ⟨s.node.voteReply term resp adopt, s.granted⟩
  | .finishElection term votes => some ⟨s.node.finishElection config term votes, s.granted⟩
  | .restart =>
    match s.node.restart with
    | none => none
    | some node => some ⟨node, s.granted⟩

/-- Never two candidates in one term. -/
def OneVote (s : Voter) : Prop :=
  ∀ T c d, (T, c) ∈ s.granted → (T, d) ∈ s.granted → c = d

end Voter

/-- A vote that the term and the vote of `st` do not allow to be given again. -/
def Remembers (st : PersistentState) (v : Nat × NodeId) : Prop :=
  v.1 < st.currentTerm ∨ (v.1 = st.currentTerm ∧ v.2 = st.votedFor)

/-- Requests name a candidate (`0` stands for none), the term counter does not wrap, the fields of
messages are as wide as in the source, and the process does not end after a failed `open` of
`state.bin` before a later one has succeeded. -/
def opensMadeUp (s : Voter) : VotingAction → Prop
  | .requestVote req _ _ =>
    req.candidateId ≠ 0 ∧ req.candidateId < 2 ^ 32 ∧ req.term < 2 ^ 64
  | .appendEntries req _ => req.term < 2 ^ 64
  | .startElection _ => s.node.raft.currentTerm + 1 < 2 ^ 64
  | .voteReply _ resp _ => resp.term < 2 ^ 64
  | .finishElection _ _ => True
  | .restart => s.node.openFailed = false

instance (s : Voter) : (a : VotingAction) → Decidable (opensMadeUp s a)
  | .requestVote req _ _ => inferInstanceAs
      (Decidable (req.candidateId ≠ 0 ∧ req.candidateId < 2 ^ 32 ∧ req.term < 2 ^ 64))
  | .appendEntries req _ => inferInstanceAs (Decidable (req.term < 2 ^ 64))
  | .startElection _ => inferInstanceAs (Decidable (s.node.raft.currentTerm + 1 < 2 ^ 64))
  | .voteReply _ resp _ => inferInstanceAs (Decidable (resp.term < 2 ^ 64))
  | .finishElection _ _ => instDecidableTrue
  | .restart => inferInstanceAs (Decidable (s.node.openFailed = false))

/-! ## Term and vote -/

namespace PersistedNode

/-- The part of a node that `PersistStateLocked` writes. -/
def ballot (node : PersistedNode) : PersistentState :=
  ⟨node.raft.currentTerm, node.raft.votedFor⟩

end PersistedNode

/-- From one ballot to the next: a later term, or the same term and no vote withdrawn. -/
def BallotMoves (b b' : PersistentState) : Prop :=
  b.currentTerm < b'.currentTerm ∨
    (b.currentTerm = b'.currentTerm ∧ (b.votedFor = 0 ∨ b.votedFor = b'.votedFor))

theorem BallotMoves.refl (b : PersistentState) : BallotMoves b b := Or.inr ⟨rfl, Or.inr rfl⟩

theorem BallotMoves.remembers {b b' : PersistentState} (h : BallotMoves b b') {v : Nat × NodeId}
    (hv : v.2 ≠ 0) (hr : Remembers b v) : Remembers b' v := by
  unfold BallotMoves at h
  unfold Remembers at hr ⊢
  rcases hr with hr | ⟨h₁, h₂⟩
  · rcases h with h | ⟨h, _⟩
    · exact Or.inl (by omega)
    · exact Or.inl (by omega)
  · rcases h with h | ⟨h, hvote⟩
    · exact Or.inl (by omega)
    · rw [h₂] at hv
      exact Or.inr ⟨h₁.trans h, h₂.trans (hvote.resolve_left hv)⟩

section Ballots

variable (node : PersistedNode)

theorem becomeFollower_moves {term : Nat} (h : node.raft.currentTerm < term) (o : PersistOutcome) :
    BallotMoves node.ballot (node.becomeFollower term o).ballot := Or.inl h

/-- Handling a vote request: nothing is granted, or the ballot becomes the request's. -/
theorem handleRequestVote_ballot (req : RequestVoteRequest) (adopt grant : PersistOutcome) :
    BallotMoves node.ballot (node.handleRequestVote req adopt grant).1.ballot ∧
      ((node.handleRequestVote req adopt grant).2.voteGranted = true →
        (node.handleRequestVote req adopt grant).2.term = req.term ∧
          (node.handleRequestVote req adopt grant).1.ballot = ⟨req.term, req.candidateId⟩) := by
  -- the node once it has looked at the term
  have hadopt : BallotMoves node.ballot
      (if node.raft.currentTerm < req.term then node.becomeFollower req.term adopt
        else node).ballot := by
    split
    · exact becomeFollower_moves node ‹_› adopt
    · exact BallotMoves.refl _
  have hle : req.term ≤
      (if node.raft.currentTerm < req.term then node.becomeFollower req.term adopt
        else node).raft.currentTerm := by
    split
    · exact Nat.le_refl _
    · omega
  unfold PersistedNode.handleRequestVote
  generalize (if node.raft.currentTerm < req.term then node.becomeFollower req.term adopt
    else node) = node₁ at hadopt hle ⊢
  simp only
  split
  · exact ⟨hadopt, fun h => by cases h⟩
  · split
    · rename_i hterm hcan
      have heq : node₁.raft.currentTerm = req.term := by omega
      refine ⟨?_, fun _ => ⟨heq, ?_⟩⟩
      · rcases hadopt with h | ⟨h, hvote⟩
        · exact Or.inl h
        · refine Or.inr ⟨h, ?_⟩
          rcases hvote with h0 | hsame
          · exact Or.inl h0
          · rcases hcan.1 with h0 | hcand
            · exact Or.inl (hsame.trans h0)
            · exact Or.inr (hsame.trans hcand)
      · show (⟨node₁.raft.currentTerm, req.candidateId⟩ : PersistentState) = _
        rw [heq]
    · exact ⟨hadopt, fun h => by cases h⟩

/-- Applying entries touches neither term nor vote. -/
theorem followCommit_ballot (r : RaftNode) (c : Nat) :
    (r.followCommit c).currentTerm = r.currentTerm ∧ (r.followCommit c).votedFor = r.votedFor := by
  rcases r.followCommit_cases c with ⟨_, h⟩ | ⟨_, h⟩ <;> rw [h] <;> exact ⟨rfl, rfl⟩

theorem handleAppendEntries_ballot (req : AppendEntriesRequest) (adopt : PersistOutcome) :
    BallotMoves node.ballot (node.handleAppendEntries req adopt).1.ballot := by
  unfold PersistedNode.handleAppendEntries
  split
  · exact BallotMoves.refl _
  · have hhead : BallotMoves node.ballot
        (if node.raft.currentTerm < req.term then node.becomeFollower req.term adopt
          else if node.raft.state = .kCandidate then
            { node with raft := { node.raft with state := .kFollower } }
          else node).ballot := by
      split
      · exact becomeFollower_moves node ‹_› adopt
      · split <;> exact BallotMoves.refl _
    generalize (if node.raft.currentTerm < req.term then node.becomeFollower req.term adopt
      else if node.raft.state = .kCandidate then
        { node with raft := { node.raft with state := .kFollower } }
      else node) = node₁ at hhead ⊢
    simp only
    split
    · exact hhead
    · simp only [PersistedNode.ballot, followCommit_ballot]
      exact hhead

theorem voteReply_ballot (term : Nat) (resp : RequestVoteResponse) (adopt : PersistOutcome) :
    BallotMoves node.ballot (node.voteReply term resp adopt).ballot := by
  unfold PersistedNode.voteReply
  split
  · exact BallotMoves.refl _
  · split
    · exact becomeFollower_moves node ‹_› adopt
    · exact BallotMoves.refl _

theorem finishElection_ballot (config : ClusterConfig) (term votes : Nat) :
    (node.finishElection config term votes).ballot = node.ballot := by
  unfold PersistedNode.finishElection RaftNode.finishElection
  split <;> rfl

theorem restart_ballot {node node' : PersistedNode} (h : node.restart = some node') :
    readStateFile node.statePath node.stateFile = .ok node'.ballot ∧
      node'.stateFile = node.stateFile ∧ node'.openFailed = node.openFailed := by
  unfold PersistedNode.restart at h
  split at h
  · rename_i hread _
    cases h
    exact ⟨hread, rfl, rfl⟩
  · cases h

end Ballots

/-! ## The file remembers the ballot -/

/-- The file holds the ballot, or is one that will be refused, unless the last `open` failed; a node
without a file is new. -/
structure FileOk (node : PersistedNode) : Prop where
  fits : node.ballot.Fits
  file : node.openFailed = false → (node.stateFile = none ∧ node.ballot = {}) ∨
    ∃ bytes, node.stateFile = some bytes ∧ (bytes = encodeState node.ballot ∨ bytes.length < 12)

section FileOk

variable {node node' : PersistedNode}

theorem FileOk.congr (F : FileOk node) (hballot : node'.ballot = node.ballot)
    (hfile : node'.stateFile = node.stateFile) (hopen : node'.openFailed = node.openFailed) :
    FileOk node' := by
  refine ⟨?_, ?_⟩
  · rw [hballot]; exact F.fits
  · rw [hballot, hfile, hopen]; exact F.file

/-- **A persist that gets past `open` leaves the ballot or a file that is refused.** -/
theorem FileOk.of_persist (outcome : PersistOutcome) (hfits : node.ballot.Fits) :
    FileOk (node.persistState outcome) := by
  refine ⟨hfits, fun hopen => Or.inr ?_⟩
  cases outcome with
  | complete => exact ⟨_, rfl, Or.inl rfl⟩
  | openFailed => cases hopen
  | writeFailed written =>
    refine ⟨_, rfl, ?_⟩
    by_cases hw : 12 ≤ written
    · exact Or.inl (List.take_of_length_le (by rw [encodeState_length]; exact hw))
    · refine Or.inr ?_
      rw [List.length_take, encodeState_length]
      omega

theorem FileOk.becomeFollower {term : Nat} (outcome : PersistOutcome) (ht : term < 2 ^ 64) :
    FileOk (node.becomeFollower term outcome) :=
  FileOk.of_persist outcome ⟨ht, Nat.two_pow_pos 32⟩

theorem FileOk.handleRequestVote (F : FileOk node) {req : RequestVoteRequest}
    (adopt grant : PersistOutcome) (hc : req.candidateId < 2 ^ 32) (ht : req.term < 2 ^ 64) :
    FileOk (node.handleRequestVote req adopt grant).1 := by
  have F₁ : FileOk (if node.raft.currentTerm < req.term then node.becomeFollower req.term adopt
      else node) := by
    split
    · exact FileOk.becomeFollower adopt ht
    · exact F
  unfold PersistedNode.handleRequestVote
  generalize (if node.raft.currentTerm < req.term then node.becomeFollower req.term adopt
    else node) = node₁ at F₁ ⊢
  simp only
  split
  · exact F₁
  · split
    · exact FileOk.of_persist grant ⟨F₁.fits.1, hc⟩
    · exact F₁

theorem FileOk.handleAppendEntries (F : FileOk node) {req : AppendEntriesRequest}
    (adopt : PersistOutcome) (ht : req.term < 2 ^ 64) :
    FileOk (node.handleAppendEntries req adopt).1 := by
  unfold PersistedNode.handleAppendEntries
  split
  · exact F
  · have F₁ : FileOk (if node.raft.currentTerm < req.term then node.becomeFollower req.term adopt
        else if node.raft.state = .kCandidate then
          { node with raft := { node.raft with state := .kFollower } }
        else node) := by
      split
      · exact FileOk.becomeFollower adopt ht
      · split
        · exact F.congr rfl rfl rfl
        · exact F
    generalize (if node.raft.currentTerm < req.term then node.becomeFollower req.term adopt
      else if node.raft.state = .kCandidate then
        { node with raft := { node.raft with state := .kFollower } }
      else node) = node₁ at F₁ ⊢
    simp only
    split
    · exact F₁.congr rfl rfl rfl
    · refine F₁.congr ?_ rfl rfl
      simp only [PersistedNode.ballot, followCommit_ballot]

/-- A restart that is not refused finds the ballot, if the last `open` succeeded. -/
theorem FileOk.read (F : FileOk node) (hopen : node.openFailed = false) {path : String}
    {p : PersistentState} (h : readStateFile path node.stateFile = .ok p) : p = node.ballot := by
  rcases F.file hopen with ⟨hnone, hballot⟩ | ⟨bytes, hsome, rfl | hshort⟩
  · rw [hnone] at h
    rw [hballot]
    exact (Except.ok.inj h).symm
  · rw [hsome, readStateFile_encodeState path F.fits] at h
    exact (Except.ok.inj h).symm
  · rw [hsome] at h
    exact absurd h (readStateFile_short hshort p)

end FileOk

/-- One call keeps the file. -/
theorem FileOk.step {config : ClusterConfig} {s s' : Voter} (hid : config.localNodeId < 2 ^ 32)
    (F : FileOk s.node) {a : VotingAction} (ha : opensMadeUp s a)
    (hs : s.step config a = some s') : FileOk s'.node := by
  cases a with
  | requestVote req adopt grant =>
    obtain ⟨_, hc, ht⟩ := ha
    rw [← Option.some.inj hs]
    exact F.handleRequestVote adopt grant hc ht
  | appendEntries req adopt =>
    rw [← Option.some.inj hs]
    exact F.handleAppendEntries adopt ha
  | startElection stand =>
    rw [← Option.some.inj hs]
    exact FileOk.of_persist stand ⟨Nat.mod_lt _ (Nat.two_pow_pos 64), hid⟩
  | voteReply term resp adopt =>
    rw [← Option.some.inj hs]
    show FileOk (s.node.voteReply term resp adopt)
    unfold PersistedNode.voteReply
    split
    · exact F
    · split
      · exact FileOk.becomeFollower adopt ha
      · exact F
  | finishElection term votes =>
    rw [← Option.some.inj hs]
    exact F.congr (finishElection_ballot s.node config term votes) rfl rfl
  | restart =>
    simp only [Voter.step] at hs
    split at hs
    · cases hs
    · rename_i node hrestart
      cases hs
      obtain ⟨hread, hfile, hopen⟩ := restart_ballot hrestart
      exact F.congr (F.read ha hread) hfile hopen

/-! ## One vote per term -/

/-- The ballot remembers every vote, and no two of them are for one term. -/
structure Sworn (s : Voter) : Prop where
  one : s.OneVote
  named : ∀ v ∈ s.granted, v.2 ≠ 0
  remembered : ∀ v ∈ s.granted, Remembers s.node.ballot v

section Preservation

variable {config : ClusterConfig} {s s' : Voter}

/-- Nothing is granted. -/
theorem Sworn.keep (S : Sworn s) {node : PersistedNode}
    (h : BallotMoves s.node.ballot node.ballot) :
    Sworn ⟨node, s.granted⟩ :=
  ⟨S.one, S.named, fun v hv => h.remembers (S.named v hv) (S.remembered v hv)⟩

/-- **A vote is granted**, and the ballot says so. -/
theorem Sworn.grant (S : Sworn s) {node : PersistedNode} {T : Nat} {c : NodeId} (hc : c ≠ 0)
    (hmoves : BallotMoves s.node.ballot node.ballot) (hballot : node.ballot = ⟨T, c⟩) :
    Sworn ⟨node, s.granted ++ [(T, c)]⟩ := by
  have K := S.keep hmoves
  -- an earlier vote of this term is remembered by the new ballot, which names `c`
  have same : ∀ d, (T, d) ∈ s.granted → d = c := by
    intro d hd
    have hr := K.remembered _ hd
    simp only [hballot, Remembers] at hr
    rcases hr with hr | ⟨_, hr⟩
    · omega
    · exact hr
  refine ⟨?_, ?_, ?_⟩
  · intro U d e hd he
    rcases List.mem_append.mp hd with h₁ | h₁
    · rcases List.mem_append.mp he with h₂ | h₂
      · exact S.one U d e h₁ h₂
      · obtain ⟨rfl, rfl⟩ := Prod.mk.inj (List.mem_singleton.mp h₂)
        exact same d h₁
    · obtain ⟨rfl, rfl⟩ := Prod.mk.inj (List.mem_singleton.mp h₁)
      rcases List.mem_append.mp he with h₂ | h₂
      · exact (same e h₂).symm
      · exact (Prod.mk.inj (List.mem_singleton.mp h₂)).2.symm
  · intro v hv
    rcases List.mem_append.mp hv with hv | hv
    · exact S.named v hv
    · rw [List.mem_singleton.mp hv]
      exact hc
  · intro v hv
    rcases List.mem_append.mp hv with hv | hv
    · exact K.remembered v hv
    · rw [List.mem_singleton.mp hv]
      show Remembers node.ballot (T, c)
      rw [hballot]
      exact Or.inr ⟨rfl, rfl⟩

/-- **Every call keeps the votes apart**: a restart finds them in the file. -/
theorem Sworn.step (hconfig : config.localNodeId ≠ 0) (S : Sworn s) (F : FileOk s.node)
    {a : VotingAction} (ha : opensMadeUp s a) (hs : s.step config a = some s') : Sworn s' := by
  cases a with
  | requestVote req adopt grant =>
    obtain ⟨hmoves, hgrant⟩ := handleRequestVote_ballot s.node req adopt grant
    rw [← Option.some.inj hs]
    by_cases hvote : (s.node.handleRequestVote req adopt grant).2.voteGranted = true
    · obtain ⟨hterm, hballot⟩ := hgrant hvote
      simp only [hvote, if_true, hterm]
      exact S.grant ha.1 hmoves hballot
    · simp only [hvote]
      exact S.keep hmoves
  | appendEntries req adopt =>
    cases hs
    exact S.keep (handleAppendEntries_ballot s.node req adopt)
  | startElection stand =>
    cases hs
    have hwrap : (s.node.raft.currentTerm + 1) % 2 ^ 64 = s.node.raft.currentTerm + 1 :=
      Nat.mod_eq_of_lt ha
    refine S.grant hconfig (Or.inl ?_) rfl
    show s.node.raft.currentTerm < (s.node.raft.currentTerm + 1) % 2 ^ 64
    omega
  | voteReply term resp adopt =>
    cases hs
    exact S.keep (voteReply_ballot s.node term resp adopt)
  | finishElection term votes =>
    cases hs
    refine S.keep ?_
    rw [finishElection_ballot]
    exact BallotMoves.refl _
  | restart =>
    simp only [Voter.step] at hs
    split at hs
    · cases hs
    · rename_i node hrestart
      cases hs
      obtain ⟨hread, _, _⟩ := restart_ballot hrestart
      refine ⟨S.one, S.named, ?_⟩
      show ∀ v ∈ s.granted, Remembers node.ballot v
      rw [F.read ha hread]
      exact S.remembered

theorem run_sworn {dataDir : String} {hash : Bytes → Nat} (hconfig : config.localNodeId ≠ 0)
    (hid : config.localNodeId < 2 ^ 32)
    (hr : Runs.Run (Voter.step config) (Voter.fresh dataDir hash) opensMadeUp s) :
    Sworn s ∧ FileOk s.node := by
  induction hr with
  | init =>
    constructor
    · exact ⟨fun _ _ _ h => (by cases h), fun _ h => (by cases h), fun _ h => (by cases h)⟩
    · exact ⟨⟨Nat.two_pow_pos 64, Nat.two_pow_pos 32⟩, fun _ => Or.inl ⟨rfl, rfl⟩⟩
  | step _ ha hs ih =>
    obtain ⟨S, F⟩ := ih
    exact ⟨S.step hconfig F ha hs, F.step hid ha hs⟩

end Preservation

/-- **A node grants at most one vote in a term**, whichever persists fail, if every failed `open` of
`state.bin` is followed by one that succeeds before the process ends.  Ids are of 32 bits. -/
theorem one_vote_per_term {config : ClusterConfig} {dataDir : String} {hash : Bytes → Nat}
    {s : Voter} (hconfig : validate config = .Ok) (hid : config.localNodeId < 2 ^ 32)
    (hr : Runs.Run (Voter.step config) (Voter.fresh dataDir hash) opensMadeUp s) : s.OneVote :=
  (run_sworn (validate_ok hconfig).1 hid hr).1.one

/-- Node 2 votes for node 1 in term 1 with a persist that fails, stands itself in term 2, restarts
and votes for node 3 in term 3. -/
theorem one_vote_per_term_restarted :
    ∃ s, Runs.Run (Voter.step (Membership.trio.configOf 2)) (Voter.fresh "data" fun _ => 0)
        opensMadeUp s ∧ s.granted = [(1, 1), (2, 2), (3, 3)] ∧ s.OneVote := by
  obtain ⟨s, hr, hs⟩ : ∃ s, Runs.Run (Voter.step (Membership.trio.configOf 2))
      (Voter.fresh "data" fun _ => 0) opensMadeUp s ∧
      decide (s.granted = [(1, 1), (2, 2), (3, 3)]) = true :=
    exists_run
      [.requestVote ⟨1, 1, 0, 0⟩ .complete .openFailed, .startElection .complete, .restart,
        .requestVote ⟨3, 3, 0, 0⟩ (.writeFailed 5) .complete] (by decide +kernel)
  exact ⟨s, hr, of_decide_eq_true hs, one_vote_per_term (by decide) (by decide) hr⟩

/-- **In general a node can vote twice in a term**: node 2 votes for node 1, the `open` of that
persist fails, and after a restart it votes for node 3. -/
theorem lost_persist_votes_twice :
    ¬ ∀ (config : ClusterConfig) (dataDir : String) (hash : Bytes → Nat) (s : Voter),
      validate config = .Ok →
      Runs.Run (Voter.step config) (Voter.fresh dataDir hash) anyStep s → s.OneVote := by
  intro hall
  obtain ⟨s, hr, hs⟩ : ∃ s, Runs.Run (Voter.step (Membership.trio.configOf 2))
      (Voter.fresh "data" fun _ => 0) anyStep s ∧
      decide ((1, 1) ∈ s.granted ∧ (1, 3) ∈ s.granted) = true :=
    exists_run
      [.requestVote ⟨1, 1, 0, 0⟩ .complete .openFailed, .restart,
        .requestVote ⟨1, 3, 0, 0⟩ .complete .complete] (by decide +kernel)
  obtain ⟨h₁, h₃⟩ := of_decide_eq_true hs
  exact absurd (hall _ _ _ s (by decide) hr 1 1 3 h₁ h₃) (by decide)

/-- Without a restart there are two more ways: candidate `0` leaves `voted_for_` at "none", and
`++current_term_` wraps to a term in which the node has voted. -/
theorem votes_twice_without_restart :
    (∃ s, Runs.Run (Voter.step (Membership.trio.configOf 2)) (Voter.fresh "data" fun _ => 0)
        anyStep s ∧ (1, 0) ∈ s.granted ∧ (1, 3) ∈ s.granted) ∧
      ∃ s, Runs.Run (Voter.step (Membership.trio.configOf 2)) (Voter.fresh "data" fun _ => 0)
        anyStep s ∧ (0, 1) ∈ s.granted ∧ (0, 2) ∈ s.granted := by
  constructor
  · obtain ⟨s, hr, hs⟩ : ∃ s, Runs.Run (Voter.step (Membership.trio.configOf 2))
        (Voter.fresh "data" fun _ => 0) anyStep s ∧
        decide ((1, 0) ∈ s.granted ∧ (1, 3) ∈ s.granted) = true :=
      exists_run
        [.requestVote ⟨1, 0, 0, 0⟩ .complete .complete,
          .requestVote ⟨1, 3, 0, 0⟩ .complete .complete] (by decide +kernel)
    exact ⟨s, hr, of_decide_eq_true hs⟩
  · obtain ⟨s, hr, hs⟩ : ∃ s, Runs.Run (Voter.step (Membership.trio.configOf 2))
        (Voter.fresh "data" fun _ => 0) anyStep s ∧
        decide ((0, 1) ∈ s.granted ∧ (0, 2) ∈ s.granted) = true :=
      exists_run
        [.requestVote ⟨0, 1, 0, 0⟩ .complete .complete,
          .appendEntries ⟨2 ^ 64 - 1, 1, 0, 0, 0, []⟩ .complete, .startElection .complete]
        (by decide +kernel)
    exact ⟨s, hr, of_decide_eq_true hs⟩

/-! ## The node of `NodeRuns` -/

/-- The two numbers in the bytes of `state.bin`. -/
def decodeState (bytes : Bytes) : PersistentState :=
  ⟨ofBE (bytes.take 8), ofBE ((bytes.drop 8).take 4)⟩

theorem decodeState_encodeState {st : PersistentState} (h : st.Fits) :
    decodeState (encodeState st) = st := by
  have hvote : (toBE 4 st.votedFor).take 4 = toBE 4 st.votedFor :=
    List.take_of_length_le (Nat.le_of_eq (toBE_length _ _))
  rw [decodeState, encodeState, List.take_left' (toBE_length _ _),
    List.drop_left' (toBE_length _ _), hvote, ofBE_toBE_of_lt h.1, ofBE_toBE_of_lt h.2]

theorem readStateFile_ok {path : String} {file : Option Bytes} {p : PersistentState}
    (h : readStateFile path file = .ok p) : (file.map decodeState).getD {} = p := by
  cases file with
  | none =>
    cases h
    rfl
  | some bytes =>
    simp only [readStateFile] at h
    split at h
    · cases h
    · cases h
      simp only [Option.map_some, Option.getD_some, decodeState, List.take_take, List.drop_take]
      rfl

/-- The node as the other modules have it: `state.bin` is its two numbers. -/
def PersistedNode.view (node : PersistedNode) : RaftNode :=
  { node.raft with stateBin := node.stateFile.map decodeState }

/-- Nothing fails, the term does not wrap, and the fields are as wide as in the source. -/
def allComplete (config : ClusterConfig) (s : Voter) : VotingAction → Prop
  | .requestVote req adopt grant =>
    req.candidateId < 2 ^ 32 ∧ req.term < 2 ^ 64 ∧ adopt = .complete ∧ grant = .complete
  | .appendEntries req adopt => req.term < 2 ^ 64 ∧ adopt = .complete
  | .startElection stand =>
    config.localNodeId < 2 ^ 32 ∧ s.node.raft.currentTerm + 1 < 2 ^ 64 ∧ stand = .complete
  | .voteReply _ resp adopt => resp.term < 2 ^ 64 ∧ adopt = .complete
  | _ => True

section View

variable {config : ClusterConfig} {node node' : PersistedNode}

@[simp] theorem view_state : node.view.state = node.raft.state := rfl

@[simp] theorem view_currentTerm : node.view.currentTerm = node.raft.currentTerm := rfl

@[simp] theorem view_votedFor : node.view.votedFor = node.raft.votedFor := rfl

@[simp] theorem view_log : node.view.log = node.raft.log := rfl

@[simp] theorem view_challengerUpToDate (req : RequestVoteRequest) :
    node.view.challengerUpToDate req = node.raft.challengerUpToDate req := rfl

theorem persistState_view (hfits : node.ballot.Fits) :
    (node.persistState .complete).view = node.view.persistState := by
  have hdecode := decodeState_encodeState hfits
  unfold PersistedNode.ballot at hdecode
  simp only [PersistedNode.view, PersistedNode.persistState, writeStateFile, Option.map_some,
    RaftNode.persistState, hdecode]

theorem becomeFollower_view {term : Nat} (ht : term < 2 ^ 64) :
    (node.becomeFollower term .complete).view = node.view.becomeFollower term :=
  persistState_view ⟨ht, Nat.two_pow_pos 32⟩

theorem handleRequestVote_view {req : RequestVoteRequest} (hc : req.candidateId < 2 ^ 32)
    (ht : req.term < 2 ^ 64) :
    (node.handleRequestVote req .complete .complete).1.view =
      (node.view.handleRequestVote req).1 := by
  have hhead : (if node.raft.currentTerm < req.term then node.becomeFollower req.term .complete
      else node).view =
      if node.view.currentTerm < req.term then node.view.becomeFollower req.term
      else node.view := by
    rw [← becomeFollower_view ht]
    exact apply_ite PersistedNode.view _ _ _
  unfold PersistedNode.handleRequestVote RaftNode.handleRequestVote
  simp only
  rw [← hhead]
  generalize (if node.raft.currentTerm < req.term then node.becomeFollower req.term .complete
    else node) = node₁
  by_cases hstale : req.term < node₁.raft.currentTerm
  · simp only [view_currentTerm, hstale, if_true]
  · simp only [view_currentTerm, view_votedFor, view_challengerUpToDate, hstale, if_false]
    by_cases hcan : (node₁.raft.votedFor = 0 ∨ node₁.raft.votedFor = req.candidateId) ∧
        node₁.raft.challengerUpToDate req
    · simp only [hcan, and_self, if_true]
      have hterm : node₁.raft.currentTerm < 2 ^ 64 := by omega
      exact persistState_view ⟨hterm, hc⟩
    · simp only [hcan, if_false]

/-- The tail of `HandleAppendEntries` does not look at the file. -/
theorem followCommit_stateBin (raft : RaftNode) (file : Option PersistentState) (commit : Nat) :
    RaftNode.followCommit { raft with stateBin := file } commit =
      { raft.followCommit commit with stateBin := file } := by
  unfold RaftNode.followCommit
  by_cases h : raft.commitIndex < commit
  · rw [if_pos h, if_pos h]
    rfl
  · rw [if_neg h, if_neg h]

theorem handleAppendEntries_view {req : AppendEntriesRequest} (ht : req.term < 2 ^ 64) :
    (node.handleAppendEntries req .complete).1.view = (node.view.handleAppendEntries req).1 := by
  unfold PersistedNode.handleAppendEntries RaftNode.handleAppendEntries
  by_cases hstale : req.term < node.raft.currentTerm
  · simp only [view_currentTerm, hstale, if_true]
  · simp only [view_currentTerm, hstale, if_false]
    have hhead : (if node.raft.currentTerm < req.term then node.becomeFollower req.term .complete
        else if node.raft.state = .kCandidate then
          { node with raft := { node.raft with state := .kFollower } }
        else node).view =
        if node.view.currentTerm < req.term then node.view.becomeFollower req.term
        else if node.view.state = .kCandidate then { node.view with state := .kFollower }
        else node.view := by
      rw [← becomeFollower_view ht, apply_ite PersistedNode.view, apply_ite PersistedNode.view]
      rfl
    unfold RaftNode.acceptLeader
    simp only
    rw [← hhead]
    generalize (if node.raft.currentTerm < req.term then node.becomeFollower req.term .complete
      else if node.raft.state = .kCandidate then
        { node with raft := { node.raft with state := .kFollower } }
      else node) = node₁
    have hprev : RaftNode.prevMismatch { node₁.view with leaderId := req.leaderId } req =
        RaftNode.prevMismatch { node₁.raft with leaderId := req.leaderId } req := rfl
    rw [hprev]
    split
    · rfl
    · exact (followCommit_stateBin _ _ _).symm

theorem startElection_view (hid : config.localNodeId < 2 ^ 32)
    (ht : node.raft.currentTerm + 1 < 2 ^ 64) :
    (node.startElection config .complete).view = (node.view.startElection config).1 := by
  have hwrap : (node.raft.currentTerm + 1) % 2 ^ 64 = node.raft.currentTerm + 1 :=
    Nat.mod_eq_of_lt ht
  unfold PersistedNode.startElection
  rw [hwrap]
  refine persistState_view ?_
  exact ⟨ht, hid⟩

theorem voteReply_view {term votes : Nat} {resp : RequestVoteResponse} (ht : resp.term < 2 ^ 64) :
    (node.voteReply term resp .complete).view = (node.view.voteReply term votes resp).1 := by
  unfold PersistedNode.voteReply RaftNode.voteReply
  by_cases hstale : node.raft.state ≠ .kCandidate ∨ node.raft.currentTerm ≠ term
  · simp only [view_state, view_currentTerm, hstale, if_true]
  · simp only [view_state, view_currentTerm, hstale, if_false]
    by_cases hnewer : node.raft.currentTerm < resp.term
    · simp only [hnewer, if_true]
      exact becomeFollower_view ht
    · simp only [hnewer, if_false]
      split <;> rfl

theorem finishElection_view (term votes : Nat) :
    (node.finishElection config term votes).view =
      (node.view.finishElection config term votes).1 := by
  unfold PersistedNode.finishElection RaftNode.finishElection
  by_cases hwon : node.raft.state = .kCandidate ∧ node.raft.currentTerm = term ∧
      config.majority ≤ votes
  · simp only [view_state, view_currentTerm, hwon, and_self, if_true]
    rfl
  · simp only [view_state, view_currentTerm, hwon, if_false]

theorem restart_view (h : node.restart = some node') : node.view.restart = some node'.view := by
  unfold PersistedNode.restart at h
  split at h
  · rename_i persisted raft hread hraft
    cases h
    unfold RaftNode.restart at hraft
    unfold RaftNode.restart
    have hload : RaftNode.loadPersistedState node.view.stateBin = persisted :=
      readStateFile_ok hread
    rw [view_log]
    split at hraft
    · cases hraft
    · cases hraft
      simp only [hload]
      rfl
  · cases h

end View

/-- **With nothing failing, every call is a scope of `NodeRuns`.** -/
theorem step_next {config : ClusterConfig} {s s' : Voter} {a : VotingAction}
    (ha : allComplete config s a) (hs : s.step config a = some s') :
    ∃ b, s.node.view.next config b = some s'.node.view := by
  cases a with
  | requestVote req adopt grant =>
    obtain ⟨hc, ht, rfl, rfl⟩ := ha
    cases hs
    exact ⟨.requestVote req, congrArg some (handleRequestVote_view hc ht).symm⟩
  | appendEntries req adopt =>
    obtain ⟨ht, rfl⟩ := ha
    cases hs
    exact ⟨.appendEntries req, congrArg some (handleAppendEntries_view ht).symm⟩
  | startElection stand =>
    obtain ⟨hid, ht, rfl⟩ := ha
    cases hs
    exact ⟨.startElection, congrArg some (startElection_view hid ht).symm⟩
  | voteReply term resp adopt =>
    obtain ⟨ht, rfl⟩ := ha
    cases hs
    exact ⟨.voteReply term 0 resp, congrArg some (voteReply_view ht).symm⟩
  | finishElection term votes =>
    cases hs
    exact ⟨.finishElection term votes, congrArg some (finishElection_view term votes).symm⟩
  | restart =>
    simp only [Voter.step] at hs
    split at hs
    · cases hs
    · rename_i node hrestart
      cases hs
      exact ⟨.restart, restart_view hrestart⟩

end NeuralKV
