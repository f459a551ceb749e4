import NeuralKV.Persistence.DurableStorage
import NeuralKV.Raft.Moves
import NeuralKV.Raft.NodeSpec
import NeuralKV.Raft.RpcCodec

/-!
# One service in two modes

`RequestHandler::Handle` of `src/server/handler.cpp` answers a write with the status of the store
itself when there is no `RaftNode`, and with the status of `Propose` when there is one.  Here
requests come one after another.

* `serve` — the store as its clients see it, a map from keys to values.  What a DELETE that finds
  nothing is answered with is a parameter.
* `DurableStorage.handle` — the mode without a `RaftNode`, with `Append`, `Sync` and the barrier
  behind it.  `DurableStorage.Idle.handleAll`: it always returns, and serves with `kNotFound`.
* `HandlesAll` — the threads of `Handle` on a leader that stays leader, commits every entry and
  confirms every read; other threads may apply entries and record acknowledgements in between.
  `HandlesAll.serves`: it serves with `kOk`; `ServingLeader.exists_handlesAll`: every sequence of
  requests can be handled like this.
* `modes_agree_iff` — **the modes give the same answers exactly if every DELETE finds its key.**
-/

set_option autoImplicit false

namespace NeuralKV

/-! ## The service -/

/-- One request; `missing` is the status of a DELETE that finds nothing. -/
def serve (missing : ResponseStatus) (m : Contents) (req : Protocol.ClientRequest) :
    ClientResponse × Contents :=
  match req.opcode with
  | .kSet => ({ status := .kOk }, Function.update m req.key (some req.value))
  | .kGet =>
    match m req.key with
    | some value => ({ status := .kOk, value := value }, m)
    | none => ({ status := .kNotFound }, m)
  | .kDelete =>
    ({ status := if (m req.key).isSome then .kOk else missing }, Function.update m req.key none)

/-- The answers to requests that come one after another. -/
def serveAll (missing : ResponseStatus) :
    Contents → List Protocol.ClientRequest → List ClientResponse
  | _, [] => []
  | m, req :: reqs => (serve missing m req).1 :: serveAll missing (serve missing m req).2 reqs

/-- Whether `key` is there after a request, if `found` says whether it was there before. -/
def holds (key : Bytes) (found : Bool) (req : Protocol.ClientRequest) : Bool :=
  if req.key = key then
    match req.opcode with
    | .kSet => true
    | .kDelete => false
    | .kGet => found
  else found

/-- The last SET or DELETE of `key` among the requests is a SET. -/
def held (key : Bytes) (reqs : List Protocol.ClientRequest) : Bool := reqs.foldl (holds key) false

theorem serve_contents (a b : ResponseStatus) (m : Contents) (req : Protocol.ClientRequest) :
    (serve a m req).2 = (serve b m req).2 := by
  unfold serve
  cases req.opcode with
  | kSet => rfl
  | kGet => cases m req.key <;> rfl
  | kDelete => rfl

theorem serve_isSome (a : ResponseStatus) (m : Contents) (req : Protocol.ClientRequest)
    (key : Bytes) : ((serve a m req).2 key).isSome = holds key (m key).isSome req := by
  unfold serve holds
  by_cases hkey : req.key = key
  · subst hkey
    cases req.opcode with
    | kSet => simp
    | kGet => cases h : m req.key <;> simp [h]
    | kDelete => simp
  · have hne : key ≠ req.key := fun h => hkey h.symm
    simp only [hkey, if_false]
    cases req.opcode with
    | kSet => simp [Function.update_of_ne hne]
    | kGet => cases m req.key <;> rfl
    | kDelete => simp [Function.update_of_ne hne]

/-- The two ways to answer one request differ on a DELETE of a missing key only. -/
theorem serve_eq_iff (m : Contents) (req : Protocol.ClientRequest) :
    (serve .kNotFound m req).1 = (serve .kOk m req).1 ↔
      (req.opcode = .kDelete → (m req.key).isSome = true) := by
  unfold serve
  cases req.opcode with
  | kSet => simp
  | kGet => cases m req.key <;> simp
  | kDelete => cases m req.key <;> simp

theorem serveAll_eq_iff : ∀ (reqs : List Protocol.ClientRequest) (m : Contents),
    serveAll .kNotFound m reqs = serveAll .kOk m reqs ↔
      ∀ i req, reqs[i]? = some req → req.opcode = .kDelete →
        (reqs.take i).foldl (holds req.key) (m req.key).isSome = true
  | [], m => by simp [serveAll]
  | r :: reqs, m => by
    rw [serveAll, serveAll, List.cons.injEq, serve_eq_iff, serve_contents .kNotFound .kOk,
      serveAll_eq_iff reqs]
    constructor
    · rintro ⟨hhead, htail⟩ i req hi hop
      cases i with
      | zero =>
        cases hi
        exact hhead hop
      | succ i =>
        have hrest := htail i req hi hop
        rw [serve_isSome] at hrest
        exact hrest
    · intro h
      refine ⟨fun hop => h 0 r rfl hop, fun i req hi hop => ?_⟩
      rw [serve_isSome]
      exact h (i + 1) req hi hop

/-! ## Without a RaftNode -/

/-- `WalWriter::Sync` while nobody else uses the writer and `fsync` succeeds; `none` if the call
waits for ever. -/
def WalWriter.syncAlone (wal : WalWriter) (atLeastIndex : Nat) : Option (WalWriter × Status) :=
  match wal.syncEnter atLeastIndex with
  | (wal, .returned status) => some (wal, status)
  | (_, .waiting) => none
  | (wal, .leading) =>
    match wal.syncFlush none with
    | (wal, .returned status) => some (wal, status)
    | _ => none

/-- The status of the operation that `applyRecord` carries out. -/
def applyStatus (kv : ShardedKV) (record : WalRecord) : Status :=
  match record.op with
  | .kSet => (kv.set record.key record.value).1
  | .kDelete => (kv.delete record.key).1

namespace DurableStorage

/-- `Set` and `Delete` behind their checks, with no other call in progress and I/O that succeeds;
`none` if the call waits for ever. -/
def write (s : DurableStorage) (record : WalRecord) : Option (Status × DurableStorage) :=
  match s.wal.append record .complete with
  | (wal, _, .error status) => some (status, { s with wal := wal })
  | (wal, _, .ok record) =>
    match wal.syncAlone record.index with
    | none => none
    | some (wal, status) =>
      if status.ok then
        (apply { s with wal := wal } record).map fun s' => (applyStatus s.kv record, s')
      else some (status, { s with wal := wal })

/-- A call of `Set` or `Delete` with the record it is going to write. -/
def call (s : DurableStorage) : Except Status WalRecord → Option (Status × DurableStorage)
  | .error status => some (status, s)
  | .ok record => s.write record

/-- `DurableStorage::Set`. -/
def set (s : DurableStorage) (key value : Bytes) : Option (Status × DurableStorage) :=
  s.call (setRecord key value)

/-- `DurableStorage::Delete`. -/
def delete (s : DurableStorage) (key : Bytes) : Option (Status × DurableStorage) :=
  s.call (deleteRecord key)

/-- The answer to a write, from the status of the store. -/
def writeResponse (result : Status × DurableStorage) : ClientResponse × DurableStorage :=
  ({ status := toResponseStatus result.1.code }, result.2)

/-- `RequestHandler::Handle` with `raft_ == nullptr`. -/
def handle (s : DurableStorage) (req : Protocol.ClientRequest) :
    Option (ClientResponse × DurableStorage) :=
  match req.opcode with
  | .kSet => (s.set req.key req.value).map writeResponse
  | .kGet => some (getResponse s.kv req.key, s)
  | .kDelete => (s.delete req.key).map writeResponse

/-- Requests one after another; `none` if one of them is never answered. -/
def handleAll (s : DurableStorage) :
    List Protocol.ClientRequest → Option (List ClientResponse × DurableStorage)
  | [] => some ([], s)
  | req :: reqs =>
    match s.handle req with
    | none => none
    | some (resp, s) => (handleAll s reqs).map fun r => (resp :: r.1, r.2)

/-- No call is in progress. -/
structure Idle (s : DurableStorage) : Prop where
  opened : s.wal.openStatus.ok = true
  notFlushing : s.wal.flushInProgress = false
  applied : s.lastAppliedIndex = s.wal.lastIndex

variable {s : DurableStorage}

theorem Idle.of_open {hash : Bytes → Nat} {file : Bytes} (h : Open hash file = .ok s) : s.Idle := by
  unfold Open recoverFromWal at h
  simp only at h
  split at h
  · rename_i hok
    cases h
    cases herror : (scanWal file).error with
    | none => exact ⟨by simp [WalWriter.openOrCreate, herror, Status.ok, Status.Ok],
        by simp [WalWriter.openOrCreate, herror], by simp [WalWriter.openOrCreate, herror]⟩
    | some status =>
      have hfail := scanWal_error herror
      rw [herror, Option.getD_some, hfail] at hok
      cases hok
  · cases h

/-- **A write to an idle store returns**, with the status of the store operation. -/
theorem Idle.write (hs : s.Idle) (record : WalRecord) :
    ∃ s', s.write record = some (applyStatus s.kv record, s') ∧ s'.Idle ∧
      s'.kv = applyRecord s.kv record := by
  have happend : s.wal.append record .complete =
      ({ s.wal with lastIndex := s.wal.lastIndex + 1 },
        encodeWalRecord { record with index := s.wal.lastIndex + 1 },
        .ok { record with index := s.wal.lastIndex + 1 }) := by
    simp [WalWriter.append, hs.opened]
  -- nobody else flushes: the call finds its record flushed, or flushes it itself
  have hsync : ∃ wal, ({ s.wal with lastIndex := s.wal.lastIndex + 1 } : WalWriter).syncAlone
      (s.wal.lastIndex + 1) = some (wal, .Ok) ∧ wal.openStatus.ok = true ∧
        wal.flushInProgress = false ∧ wal.lastIndex = s.wal.lastIndex + 1 := by
    by_cases hsynced : s.wal.lastIndex + 1 ≤ s.wal.syncedIndex
    · refine ⟨{ s.wal with lastIndex := s.wal.lastIndex + 1 }, ?_, hs.opened, hs.notFlushing, rfl⟩
      simp [WalWriter.syncAlone, WalWriter.syncEnter, hs.opened, hsynced]
    · refine ⟨⟨s.wal.lastIndex + 1, s.wal.lastIndex + 1, false, s.wal.openStatus⟩, ?_, hs.opened,
        rfl, rfl⟩
      simp [WalWriter.syncAlone, WalWriter.syncEnter, WalWriter.syncFlush, hs.opened, hsynced,
        hs.notFlushing]
  obtain ⟨wal, hsync, hopened, hflush, hlast⟩ := hsync
  refine ⟨⟨wal, applyRecord s.kv record, s.wal.lastIndex + 1⟩, ?_, ⟨hopened, hflush, hlast.symm⟩,
    rfl⟩
  unfold DurableStorage.write
  rw [happend]
  simp only [hsync]
  rw [if_pos (by rfl)]
  simp only [apply, hs.applied, Nat.add_sub_cancel, if_true, Option.map_some]
  rfl

/-- **Without a RaftNode a request is served with the store's own answer.** -/
theorem Idle.handle (hs : s.Idle) {req : Protocol.ClientRequest} (hreq : req.Valid) :
    ∃ s', s.handle req = some ((serve .kNotFound s.kv.contents req).1, s') ∧ s'.Idle ∧
      s'.kv.contents = (serve .kNotFound s.kv.contents req).2 := by
  obtain ⟨hkey, hvalue⟩ := hreq
  unfold DurableStorage.handle serve
  cases hop : req.opcode with
  | kSet =>
    rw [hop] at hvalue
    obtain ⟨s', hwrite, hidle, hkv⟩ :=
      hs.write { op := .kSet, key := req.key, value := req.value }
    have hset := s.kv.set_eq hkey req.value
    have hrecord : setRecord req.key req.value =
        .ok { op := .kSet, key := req.key, value := req.value } := by
      simp [setRecord, hkey, Fields.require_ok.mp hvalue]
    refine ⟨s', ?_, hidle, ?_⟩
    · simp only [DurableStorage.set, hrecord, call, hwrite, Option.map_some, writeResponse,
        applyStatus, hset.1]
      rfl
    · rw [hkv]
      exact hset.2
  | kGet =>
    refine ⟨s, ?_, hs, ?_⟩
    · simp only [getResponse_eq hkey]
      cases s.kv.contents req.key <;> rfl
    · simp only
      cases s.kv.contents req.key <;> rfl
  | kDelete =>
    obtain ⟨s', hwrite, hidle, hkv⟩ := hs.write { op := .kDelete, key := req.key }
    have hdelete := s.kv.delete_eq hkey
    have hrecord : deleteRecord req.key = .ok { op := .kDelete, key := req.key } := by
      simp [deleteRecord, hkey]
    refine ⟨s', ?_, hidle, ?_⟩
    · simp only [DurableStorage.delete, hrecord, call, hwrite, Option.map_some, writeResponse,
        applyStatus, hdelete.1]
      cases s.kv.contents req.key <;> rfl
    · rw [hkv]
      exact hdelete.2

theorem Idle.handleAll : ∀ {reqs : List Protocol.ClientRequest} {s : DurableStorage}, s.Idle →
    (∀ req ∈ reqs, req.Valid) →
      ∃ s', s.handleAll reqs = some (serveAll .kNotFound s.kv.contents reqs, s')
  | [], s, _, _ => ⟨s, rfl⟩
  | req :: reqs, s, hs, hreqs => by
    obtain ⟨s₁, hhandle, hidle, hkv⟩ := hs.handle (hreqs req List.mem_cons_self)
    obtain ⟨s₂, hrest⟩ := Idle.handleAll hidle fun r hr => hreqs r (List.mem_cons_of_mem _ hr)
    refine ⟨s₂, ?_⟩
    rw [hkv] at hrest
    unfold DurableStorage.handleAll serveAll
    rw [hhandle]
    simp only [hrest, Option.map_some]

end DurableStorage

/-! ## On a leader -/

/-- What other threads do to the node of a stable leader: it stays leader, nobody else writes to its
log, and more of the log may be applied.  Peers' indices and acknowledgements are free. -/
structure StableMove (node node' : RaftNode) : Prop where
  state : node'.state = node.state
  log : node'.log = node.log
  applied : ∃ commitIndex, node'.storage =
    ({ node with commitIndex := commitIndex } : RaftNode).applyCommittedEntries.storage

/-- A SET or DELETE from some program point to its answer, on a stable leader.  `Propose` does not
time out. -/
inductive WriteRuns (n : NodeId) : RaftNode → Write → ClientResponse → RaftNode → Prop where
  | stable {node node₁ node₂ : RaftNode} {w : Write} {resp : ClientResponse}
      (hstable : StableMove node node₁) (hrest : WriteRuns n node₁ w resp node₂) :
      WriteRuns n node w resp node₂
  | step {node node₁ node₂ : RaftNode} {w w' : Write} {events : List Event} {resp : ClientResponse}
      (hstep : w.step n node false = some (node₁, some w', events))
      (hrest : WriteRuns n node₁ w' resp node₂) : WriteRuns n node w resp node₂
  | answered {node node₁ : RaftNode} {w : Write} {events : List Event} {entry : Option LogEntry}
      {resp : ClientResponse} (hstep : w.step n node false = some (node₁, none, events))
      (hresp : .answered n entry resp ∈ events) : WriteRuns n node w resp node₁

/-- A GET from some program point to its answer, on a stable leader.  `ConfirmLeadershipQuorum` does
not fail. -/
inductive ReadRuns (config : ClusterConfig) :
    RaftNode → Read → ClientResponse → RaftNode → Prop where
  | stable {node node₁ node₂ : RaftNode} {r : Read} {resp : ClientResponse}
      (hstable : StableMove node node₁) (hrest : ReadRuns config node₁ r resp node₂) :
      ReadRuns config node r resp node₂
  | step {node node₂ : RaftNode} {r r' : Read} {now pos nextRpc : Nat}
      {reply : Option AppendEntriesResponse} {out : ReadOutcome} {resp : ClientResponse}
      (hstep : r.step config node now pos nextRpc reply = some out) (hnext : out.thread = some r')
      (hconfirms : r'.stage ≠ .rejected) (hrest : ReadRuns config out.raft r' resp node₂) :
      ReadRuns config node r resp node₂
  | answered {node : RaftNode} {r : Read} {now pos nextRpc : Nat}
      {reply : Option AppendEntriesResponse} {out : ReadOutcome} {resp : ClientResponse}
      {key : Bytes} {invokedAt start lastApplied : Nat} {full : Bool}
      (hstep : r.step config node now pos nextRpc reply = some out) (hend : out.thread = none)
      (hresp : .readDone config.localNodeId key invokedAt start full lastApplied resp ∈
        out.events) :
      ReadRuns config node r resp out.raft

/-- `RequestHandler::Handle` on a stable leader. -/
inductive Handles (config : ClusterConfig) (allowStaleReads : Bool) :
    RaftNode → Protocol.ClientRequest → ClientResponse → RaftNode → Prop where
  | write {node node' : RaftNode} {req : Protocol.ClientRequest} {entry : LogEntry}
      {resp : ClientResponse} (hentry : req.entry = some entry)
      (hrun : WriteRuns config.localNodeId node { entry := entry } resp node') :
      Handles config allowStaleReads node req resp node'
  | read {node node' : RaftNode} {req : Protocol.ClientRequest} {invokedAt : Nat}
      {resp : ClientResponse} (hop : req.opcode = .kGet) (hstale : allowStaleReads = false)
      (hrun : ReadRuns config node { key := req.key, invokedAt := invokedAt } resp node') :
      Handles config allowStaleReads node req resp node'
  | staleRead {node : RaftNode} {req : Protocol.ClientRequest} (hop : req.opcode = .kGet)
      (hstale : allowStaleReads = true) :
      Handles config allowStaleReads node req (getResponse node.storage.kv req.key) node

/-- Requests one after another. -/
inductive HandlesAll (config : ClusterConfig) (allowStaleReads : Bool) :
    RaftNode → List Protocol.ClientRequest → List ClientResponse → RaftNode → Prop where
  | nil {node : RaftNode} : HandlesAll config allowStaleReads node [] [] node
  | stable {node node₁ node₂ : RaftNode} {reqs : List Protocol.ClientRequest}
      {resps : List ClientResponse} (hstable : StableMove node node₁)
      (hrest : HandlesAll config allowStaleReads node₁ reqs resps node₂) :
      HandlesAll config allowStaleReads node reqs resps node₂
  | cons {node node₁ node₂ : RaftNode} {req : Protocol.ClientRequest} {resp : ClientResponse}
      {reqs : List Protocol.ClientRequest} {resps : List ClientResponse}
      (hhead : Handles config allowStaleReads node req resp node₁)
      (hrest : HandlesAll config allowStaleReads node₁ reqs resps node₂) :
      HandlesAll config allowStaleReads node (req :: reqs) (resp :: resps) node₂

/-- A leader whose log is applied to its end: what a client sees is `m`. -/
structure ServingLeader (m : Contents) (node : RaftNode) : Prop where
  leader : node.state = .kLeader
  contiguous : node.log.Contiguous
  applied : node.storage.lastAppliedIndex = node.log.entries.length
  contents : node.storage.kv.contents = m

/-- A leader that waits for `entry`, the last one of its log. -/
structure WaitingLeader (m : Contents) (entry : LogEntry) (node : RaftNode) : Prop where
  leader : node.state = .kLeader
  contiguous : node.log.Contiguous
  last : node.log.entries.getLast? = some entry
  applied : node.storage.lastAppliedIndex + 1 = node.log.entries.length
  contents : node.storage.kv.contents = m

variable {m : Contents} {node node' : RaftNode}

theorem StableMove.storage (hstable : StableMove node node') (hlog : node.log.Contiguous) :
    ∃ commitIndex, node'.storage =
      { kv := replay node.storage.kv ((node.log.entries.drop node.storage.lastAppliedIndex).take
          (commitIndex - node.storage.lastAppliedIndex))
        lastAppliedIndex :=
          max node.storage.lastAppliedIndex (min commitIndex node.log.entries.length)
        applied := node.storage.applied ++
          (node.log.entries.drop node.storage.lastAppliedIndex).take
            (commitIndex - node.storage.lastAppliedIndex) } := by
  obtain ⟨commitIndex, hstorage⟩ := hstable.applied
  exact ⟨commitIndex, hstorage.trans (RaftNode.applyCommittedEntries_storage hlog)⟩

theorem ServingLeader.stable (h : ServingLeader m node) (hstable : StableMove node node') :
    ServingLeader m node' := by
  obtain ⟨commitIndex, hstorage⟩ := hstable.storage h.contiguous
  simp only [h.applied, List.drop_length, List.take_nil] at hstorage
  refine ⟨hstable.state.trans h.leader, hstable.log ▸ h.contiguous, ?_, ?_⟩
  · rw [hstorage, hstable.log]
    simp only
    omega
  · rw [hstorage]
    exact h.contents

/-- The entry goes on waiting, or is applied. -/
theorem WaitingLeader.stable {entry : LogEntry} (h : WaitingLeader m entry node)
    (hstable : StableMove node node') (hkey : entry.key ≠ []) :
    WaitingLeader m entry node' ∨ ServingLeader (contentsAfter m entry) node' := by
  obtain ⟨commitIndex, hstorage⟩ := hstable.storage h.contiguous
  obtain ⟨before, hbefore⟩ := List.getLast?_eq_some_iff.mp h.last
  have hlen : node.storage.lastAppliedIndex = before.length := by
    have happlied := h.applied
    rw [hbefore, List.length_append, List.length_singleton] at happlied
    omega
  have hlead := hstable.state.trans h.leader
  have hcont : node'.log.Contiguous := hstable.log ▸ h.contiguous
  simp only [hbefore, hlen, List.drop_left, List.length_append, List.length_singleton] at hstorage
  by_cases hcommit : commitIndex ≤ before.length
  · left
    rw [Nat.sub_eq_zero_of_le hcommit, List.take_zero] at hstorage
    refine ⟨hlead, hcont, hstable.log ▸ h.last, ?_, ?_⟩
    · rw [hstorage, hstable.log, hbefore]
      simp only [List.length_append, List.length_singleton]
      omega
    · rw [hstorage]
      exact h.contents
  · right
    rw [List.take_of_length_le (by rw [List.length_singleton]; omega)] at hstorage
    refine ⟨hlead, hcont, ?_, ?_⟩
    · rw [hstorage, hstable.log, hbefore]
      simp only [List.length_append, List.length_singleton]
      omega
    · rw [hstorage, ← h.contents]
      exact contents_applyRecord node.storage.kv hkey

theorem WaitingLeader.index {entry : LogEntry} (h : WaitingLeader m entry node) :
    entry.index = node.log.entries.length := by
  have hlast := h.contiguous.numbered.getLast
  rw [h.last] at hlast
  exact hlast

/-- Where a write on a stable leader can be, and what its clients see meanwhile. -/
inductive WritePhase (m : Contents) (entry : LogEntry) : RaftNode → WriteStage → Prop where
  | invoked {node : RaftNode} (h : ServingLeader m node) : WritePhase m entry node .invoked
  | leaderSeen {node : RaftNode} (h : ServingLeader m node) : WritePhase m entry node .leaderSeen
  | waiting {node : RaftNode} {term index : Nat}
      (h : WaitingLeader m { entry with term := term, index := index } node) :
      WritePhase m entry node (.waiting { entry with term := term, index := index })
  | applied {node : RaftNode} {appended : LogEntry} (h : ServingLeader (contentsAfter m entry) node)
      (hindex : appended.index = node.log.entries.length) :
      WritePhase m entry node (.waiting appended)

theorem WritePhase.stable {entry : LogEntry} {stage : WriteStage} (hkey : entry.key ≠ [])
    (h : WritePhase m entry node stage) (hstable : StableMove node node') :
    WritePhase m entry node' stage := by
  cases h with
  | invoked h => exact .invoked (h.stable hstable)
  | leaderSeen h => exact .leaderSeen (h.stable hstable)
  | waiting h =>
    have hindex := h.index
    rcases h.stable hstable hkey with h' | h'
    · exact .waiting h'
    · exact .applied h' (by rw [hstable.log]; exact hindex)
  | applied h hindex => exact .applied (h.stable hstable) (by rw [hstable.log]; exact hindex)

/-- The entry that `Propose` appends is pending. -/
theorem ServingLeader.proposed (h : ServingLeader m node) {entry : LogEntry}
    (hindex : entry.index = node.log.entries.length + 1) :
    WaitingLeader m entry { node with log := node.log.append entry } := by
  have hentries := Log.append_entries_self h.contiguous hindex
  refine ⟨h.leader, Log.append_contiguous h.contiguous _, ?_, ?_, h.contents⟩
  · simp only [hentries, List.getLast?_concat]
  · simp only [hentries, h.applied, List.length_append, List.length_singleton]

/-- One lock scope of a write on a stable leader. -/
theorem WritePhase.step {n : NodeId} {w : Write} {next : Option Write} {events : List Event}
    (h : WritePhase m w.entry node w.stage)
    (hstep : w.step n node false = some (node', next, events)) :
    (∃ w', next = some w' ∧ w'.entry = w.entry ∧ WritePhase m w.entry node' w'.stage) ∨
      (next = none ∧ ServingLeader (contentsAfter m w.entry) node' ∧
        ∀ e resp, .answered n e resp ∈ events → resp = { status := .kOk }) := by
  obtain ⟨entry, stage⟩ := w
  simp only at h ⊢
  unfold Write.step at hstep
  cases h with
  | invoked h =>
    simp only [h.leader, if_true] at hstep
    cases hstep
    exact Or.inl ⟨_, rfl, rfl, .leaderSeen h⟩
  | leaderSeen h =>
    simp only [RaftNode.proposeAppend] at hstep
    rw [if_neg (not_not.mpr h.leader)] at hstep
    cases hstep
    refine Or.inl ⟨_, rfl, rfl, .waiting (h.proposed ?_)⟩
    simp only [h.contiguous.lastIndex]
  | waiting h =>
    -- the predicate of the wait is false: the thread stays blocked
    have hlt : ¬ node.log.entries.length ≤ node.storage.lastAppliedIndex := by
      have happlied := h.applied
      omega
    have hindex := h.index
    simp only at hindex
    simp only [RaftNode.proposeResult, hindex, hlt, h.leader, ne_eq, not_true_eq_false, or_self,
      if_false, Bool.false_eq_true] at hstep
    cases hstep
  | applied h hindex =>
    right
    simp only [RaftNode.proposeResult, hindex, h.applied, Nat.le_refl, true_or, if_true,
      Nat.lt_irrefl, if_false, Write.afterPropose] at hstep
    cases hstep
    refine ⟨rfl, h, fun e resp hmem => ?_⟩
    rcases List.mem_cons.mp hmem with heq | hmem
    · cases heq
    · cases List.mem_singleton.mp hmem
      rfl

/-- **A write on a stable leader is answered with `kOk`**, once its entry is applied. -/
theorem WriteRuns.settles {n : NodeId} {w : Write} {resp : ClientResponse}
    (hrun : WriteRuns n node w resp node') (hkey : w.entry.key ≠ [])
    (h : WritePhase m w.entry node w.stage) :
    resp = { status := .kOk } ∧ ServingLeader (contentsAfter m w.entry) node' := by
  induction hrun with
  | stable hstable _ ih => exact ih hkey (h.stable hkey hstable)
  | step hstep _ ih =>
    rcases h.step hstep with ⟨w', hnext, hentry, hphase⟩ | ⟨hnext, _⟩
    · cases hnext
      rw [← hentry] at hkey hphase ⊢
      exact ih hkey hphase
    · cases hnext
  | answered hstep hresp =>
    rcases h.step hstep with ⟨_, hnext, _⟩ | ⟨_, hserving, hanswer⟩
    · cases hnext
    · exact ⟨hanswer _ _ hresp, hserving⟩

/-- A confirmation that does not fail changes acknowledgements only. -/
theorem ServingLeader.readStep {config : ClusterConfig} {r r' : Read} {now pos nextRpc : Nat}
    {reply : Option AppendEntriesResponse} {out : ReadOutcome} (h : ServingLeader m node)
    (hstep : r.step config node now pos nextRpc reply = some out) (hnext : out.thread = some r')
    (hconfirms : r'.stage ≠ .rejected) : r'.key = r.key ∧ ServingLeader m out.raft := by
  cases Read.step_move hstep with
  | passed _ | recent _ _ | begun _ _ _ | confirmed _ _ | sent _ _ =>
    cases hnext
    exact ⟨rfl, h⟩
  | lost _ _ _ =>
    cases hnext
    exact absurd rfl hconfirms
  | @counted term start acks acks' rpc peer todo resp _ _ hres =>
    cases hnext
    refine ⟨rfl, ?_⟩
    rcases node.confirmReply_cases term acks peer resp now with
      ⟨_, heq⟩ | heq | ⟨_, _, _, heq⟩ | ⟨_, _, heq⟩
    · rw [heq] at hres
      cases hres
    · rw [heq] at hres
      cases hres
    · rw [heq]
      exact ⟨h.leader, h.contiguous, h.applied, h.contents⟩
    · rw [heq]
      exact h
  | done _ => cases hnext
  | refused _ => cases hnext

/-- **A GET on a stable leader is answered from the store**, and changes nothing in it. -/
theorem ReadRuns.settles {config : ClusterConfig} {r : Read} {resp : ClientResponse}
    (hrun : ReadRuns config node r resp node') (h : ServingLeader m node) :
    (∃ kv : ShardedKV, kv.contents = m ∧ resp = getResponse kv r.key) ∧ ServingLeader m node' := by
  induction hrun with
  | stable hstable _ ih => exact ih (h.stable hstable)
  | step hstep hnext hconfirms _ ih =>
    obtain ⟨hkey, hserving⟩ := h.readStep hstep hnext hconfirms
    rw [← hkey]
    exact ih hserving
  | answered hstep hend hresp =>
    cases Read.step_move hstep with
    | passed _ | recent _ _ | begun _ _ _ | confirmed _ _ | sent _ _ | lost _ _ _
    | counted _ _ _ => cases hend
    | done _ =>
      cases List.mem_singleton.mp hresp
      exact ⟨⟨_, h.contents, rfl⟩, h⟩
    | refused _ => cases List.mem_singleton.mp hresp

theorem serve_get (missing : ResponseStatus) {req : Protocol.ClientRequest} {kv : ShardedKV}
    (hkey : req.key ≠ []) (hop : req.opcode = .kGet) (hkv : kv.contents = m) :
    serve missing m req = (getResponse kv req.key, m) := by
  unfold serve
  rw [hop, getResponse_eq hkey, hkv]
  cases m req.key <;> rfl

/-- **On a stable leader a DELETE is served with `kOk`, whether it finds its key or not.** -/
theorem Handles.serves {config : ClusterConfig} {allowStaleReads : Bool}
    {req : Protocol.ClientRequest} {resp : ClientResponse} (h : ServingLeader m node)
    (hreq : req.Valid) (hrun : Handles config allowStaleReads node req resp node') :
    resp = (serve .kOk m req).1 ∧ ServingLeader (serve .kOk m req).2 node' := by
  cases hrun with
  | write hentry hrun =>
    unfold Protocol.ClientRequest.entry at hentry
    unfold serve
    cases hop : req.opcode with
    | kSet =>
      rw [hop] at hentry
      cases hentry
      exact hrun.settles hreq.1 (.invoked h)
    | kGet =>
      rw [hop] at hentry
      cases hentry
    | kDelete =>
      rw [hop] at hentry
      cases hentry
      simp only [ite_self]
      exact hrun.settles hreq.1 (.invoked h)
  | read hop _ hrun =>
    obtain ⟨⟨kv, hkv, hresp⟩, hserving⟩ := hrun.settles h
    rw [serve_get .kOk hreq.1 hop hkv]
    exact ⟨hresp, hserving⟩
  | staleRead hop _ =>
    rw [serve_get .kOk hreq.1 hop h.contents]
    exact ⟨rfl, h⟩

theorem HandlesAll.serves {config : ClusterConfig} {allowStaleReads : Bool}
    {reqs : List Protocol.ClientRequest} {resps : List ClientResponse}
    (hrun : HandlesAll config allowStaleReads node reqs resps node') (h : ServingLeader m node)
    (hreqs : ∀ req ∈ reqs, req.Valid) : resps = serveAll .kOk m reqs := by
  induction hrun generalizing m with
  | nil => rfl
  | stable hstable _ ih => exact ih (h.stable hstable) hreqs
  | cons hhead _ ih =>
    obtain ⟨hresp, hserving⟩ := hhead.serves h (hreqs _ List.mem_cons_self)
    rw [serveAll, ← hresp, ih hserving fun r hr => hreqs r (List.mem_cons_of_mem _ hr)]

/-! ### Executions -/

/-- The last entry of the log can be committed and applied. -/
theorem WaitingLeader.exists_applied {entry : LogEntry} (h : WaitingLeader m entry node) :
    ∃ node', StableMove node node' ∧ entry.index ≤ node'.storage.lastAppliedIndex := by
  refine ⟨({ node with commitIndex := node.log.entries.length } : RaftNode).applyCommittedEntries,
    ⟨rfl, rfl, _, rfl⟩, ?_⟩
  have hlog : ({ node with commitIndex := node.log.entries.length } : RaftNode).log.Contiguous :=
    h.contiguous
  rw [RaftNode.applyCommittedEntries_storage hlog, h.index]
  simp only
  omega

theorem ServingLeader.exists_write (h : ServingLeader m node) (n : NodeId) (entry : LogEntry) :
    ∃ node', WriteRuns n node { entry := entry } { status := .kOk } node' := by
  obtain ⟨e, he⟩ : ∃ e : LogEntry,
      e = { entry with term := node.currentTerm, index := node.log.wal.lastIndex + 1 } := ⟨_, rfl⟩
  have hindex : e.index = node.log.entries.length + 1 := by
    rw [he, ← h.contiguous.lastIndex]
  obtain ⟨node', hstable, happlied⟩ := (h.proposed hindex).exists_applied
  refine ⟨node', ?_⟩
  have hseen : Write.step n node { entry := entry } false =
      some (node, some ⟨entry, .leaderSeen⟩, []) := by
    simp only [Write.step, h.leader, if_true]
  have happend : Write.step n node ⟨entry, .leaderSeen⟩ false =
      some ({ node with log := node.log.append e }, some ⟨entry, .waiting e⟩, [.proposed n e]) := by
    simp only [Write.step, RaftNode.proposeAppend]
    rw [if_neg (not_not.mpr h.leader), he]
  have hreturn : Write.step n node' ⟨entry, .waiting e⟩ false =
      some (node', none,
        [.proposeReturned n e .Ok node'.log.entries, .answered n (some e) { status := .kOk }]) := by
    simp only [Write.step, RaftNode.proposeResult, happlied, true_or, if_true,
      Nat.not_lt.mpr happlied, if_false]
    rfl
  apply WriteRuns.step hseen
  apply WriteRuns.step happend
  apply WriteRuns.stable hstable
  apply WriteRuns.answered hreturn
  exact List.mem_cons_of_mem _ List.mem_cons_self

/-- Every GET has an execution: the leader has lately heard from all its peers. -/
theorem ServingLeader.exists_read (h : ServingLeader m node) (config : ClusterConfig) (key : Bytes)
    (hmajority : config.majority ≤ 1 + config.otherPeers.length) :
    ∃ resp node', ReadRuns config node { key := key, invokedAt := 0 } resp node' := by
  obtain ⟨node', hnode'⟩ : ∃ node' : RaftNode,
      node' = { node with lastAckTime := config.otherPeers.map fun peer => (peer, 0) } := ⟨_, rfl⟩
  have hlead : node'.state = .kLeader := by
    rw [hnode']
    exact h.leader
  have hstable : StableMove node node' := by
    rw [hnode']
    exact ⟨rfl, rfl, 0, by simp [RaftNode.applyCommittedEntries, RaftNode.applyLoop]⟩
  have hrecent : node'.hasRecentMajorityContact config 0 = true := by
    have hcount : node'.lastAckTime.countP (fun p => decide (0 - p.2 ≤ kHeartbeatInterval)) =
        config.otherPeers.length := by
      rw [hnode']
      simp
    simp only [RaftNode.hasRecentMajorityContact, hlead, hcount, hmajority, decide_true,
      Bool.and_true]
    rfl
  have hseen : Read.step config node { key := key, invokedAt := 0 } 0 0 0 none =
      some { raft := node, thread := some ⟨key, 0, .leaderSeen⟩ } := by
    simp only [Read.step, h.leader, if_true]
  have hconfirm : Read.step config node' ⟨key, 0, .leaderSeen⟩ 0 0 0 none =
      some
        { raft := node'
          thread := some ⟨key, 0, .confirmed 0 false⟩
          events := [.confirmed config.localNodeId node'.currentTerm 0 false] } := by
    simp only [Read.step, RaftNode.beginConfirm, hlead, hrecent, ne_eq, not_true_eq_false, if_false,
      if_true]
  have hdone : Read.step config node' ⟨key, 0, .confirmed 0 false⟩ 0 0 0 none =
      some
        { raft := node'
          thread := none
          events := [.readDone config.localNodeId key 0 0 false node'.storage.lastAppliedIndex
            (getResponse node'.storage.kv key)] } := rfl
  refine ⟨getResponse node'.storage.kv key, node', ?_⟩
  apply ReadRuns.step hseen rfl (by simp)
  apply ReadRuns.stable hstable
  apply ReadRuns.step hconfirm rfl (by simp)
  exact ReadRuns.answered hdone rfl List.mem_cons_self

/-- **Every sequence of requests has an execution** on a leader of a cluster that has a majority. -/
theorem ServingLeader.exists_handlesAll (config : ClusterConfig)
    (hmajority : config.majority ≤ 1 + config.otherPeers.length) (allowStaleReads : Bool) :
    ∀ {reqs : List Protocol.ClientRequest} {m : Contents} {node : RaftNode}, ServingLeader m node →
      (∀ req ∈ reqs, req.Valid) →
        ∃ resps node', HandlesAll config allowStaleReads node reqs resps node'
  | [], _, node, _, _ => ⟨[], node, .nil⟩
  | req :: reqs, m, node, h, hreqs => by
    have hreq := hreqs req List.mem_cons_self
    obtain ⟨resp, node₁, hhead⟩ :
        ∃ resp node₁, Handles config allowStaleReads node req resp node₁ := by
      cases hop : req.opcode with
      | kGet =>
        cases hstale : allowStaleReads with
        | true => exact ⟨_, _, .staleRead hop rfl⟩
        | false =>
          obtain ⟨resp, node₁, hrun⟩ := h.exists_read config req.key hmajority
          exact ⟨resp, node₁, .read hop rfl hrun⟩
      | kSet | kDelete =>
        obtain ⟨entry, hentry⟩ : ∃ entry, req.entry = some entry := by
          simp [Protocol.ClientRequest.entry, hop]
        obtain ⟨node₁, hrun⟩ := h.exists_write config.localNodeId entry
        exact ⟨_, node₁, .write hentry hrun⟩
    obtain ⟨_, hserving⟩ := hhead.serves h hreq
    obtain ⟨resps, node₂, hrest⟩ := ServingLeader.exists_handlesAll config hmajority allowStaleReads
      hserving fun r hr => hreqs r (List.mem_cons_of_mem _ hr)
    exact ⟨resp :: resps, node₂, .cons hhead hrest⟩

/-! ## The two modes -/

/-- **On the same requests, from empty stores, the modes give the same answers exactly if every
DELETE finds its key**: the last write of that key before it is a SET. -/
theorem modes_agree_iff {config : ClusterConfig} {allowStaleReads : Bool} {s : DurableStorage}
    {node node' : RaftNode} {reqs : List Protocol.ClientRequest} {resps : List ClientResponse}
    (hs : s.Idle) (hempty : s.kv.contents = fun _ => none)
    (hnode : ServingLeader (fun _ => none) node) (hreqs : ∀ req ∈ reqs, req.Valid)
    (hrun : HandlesAll config allowStaleReads node reqs resps node') :
    ∃ resps' s', s.handleAll reqs = some (resps', s') ∧
      (resps' = resps ↔ ∀ i req, reqs[i]? = some req → req.opcode = .kDelete →
        held req.key (reqs.take i) = true) := by
  obtain ⟨s', hhandle⟩ := hs.handleAll hreqs
  refine ⟨_, s', hhandle, ?_⟩
  rw [hrun.serves hnode hreqs, hempty, serveAll_eq_iff]
  rfl

/-- Node 1 of three. -/
def firstOfThree : ClusterConfig where
  localNodeId := 1
  peers := [{ nodeId := 1 }, { nodeId := 2 }, { nodeId := 3 }]

/-- A process that has just started on an empty data directory. -/
def startedStorage : DurableStorage := ⟨{}, ShardedKV.empty List.length, 0⟩

/-- The first leader of a cluster. -/
def startedLeader : RaftNode :=
  { RaftNode.fresh List.length with state := .kLeader, currentTerm := 1 }

theorem startedStorage_idle : startedStorage.Idle :=
  .of_open (show DurableStorage.Open List.length [] = .ok startedStorage from rfl)

theorem startedLeader_serving : ServingLeader (fun _ => none) startedLeader :=
  ⟨rfl, Log.Contiguous.empty, rfl, ShardedKV.contents_empty _⟩

def setGetDelete : List Protocol.ClientRequest :=
  [{ opcode := .kSet, key := [97], value := [49] }, { opcode := .kGet, key := [97] },
    { opcode := .kDelete, key := [97] }]

theorem modes_agree_set_get_delete :
    ∃ resps node' s', HandlesAll firstOfThree false startedLeader setGetDelete resps node' ∧
      startedStorage.handleAll setGetDelete = some (resps, s') := by
  have hreqs : ∀ req ∈ setGetDelete, req.Valid := by
    intro req hreq
    simp only [setGetDelete, List.mem_cons, List.not_mem_nil, or_false] at hreq
    rcases hreq with rfl | rfl | rfl
    · exact ⟨by decide, rfl⟩
    · exact ⟨by decide, rfl⟩
    · exact ⟨by decide, rfl⟩
  have hheld : ∀ i req, setGetDelete[i]? = some req → req.opcode = .kDelete →
      held req.key (setGetDelete.take i) = true := by
    intro i req hi hop
    match i, hi with
    | 0, hi =>
      cases hi
      cases hop
    | 1, hi =>
      cases hi
      cases hop
    | 2, hi =>
      cases hi
      decide
  obtain ⟨resps, node', hrun⟩ :=
    ServingLeader.exists_handlesAll firstOfThree (by decide) false startedLeader_serving hreqs
  obtain ⟨resps', s', hhandle, hiff⟩ := modes_agree_iff startedStorage_idle
    (ShardedKV.contents_empty _) startedLeader_serving hreqs hrun
  refine ⟨resps, node', s', hrun, ?_⟩
  rw [hhandle, hiff.mpr hheld]

/-- **In general they do not agree**: a DELETE of a key that is not there is `kNotFound` without a
RaftNode and `kOk` with one. -/
theorem modes_disagree_on_missing_key :
    ¬ ∀ (config : ClusterConfig) (allowStaleReads : Bool) (s : DurableStorage)
        (node node' : RaftNode) (reqs : List Protocol.ClientRequest) (resps : List ClientResponse),
      s.Idle → (s.kv.contents = fun _ => none) → ServingLeader (fun _ => none) node →
      (∀ req ∈ reqs, req.Valid) → HandlesAll config allowStaleReads node reqs resps node' →
      ∃ s', s.handleAll reqs = some (resps, s') := by
  intro hall
  have hreqs : ∀ req ∈ [({ opcode := .kDelete, key := [97] } : Protocol.ClientRequest)],
      req.Valid := by
    intro req hreq
    cases List.mem_singleton.mp hreq
    exact ⟨by decide, rfl⟩
  obtain ⟨resps, node', hrun⟩ :=
    ServingLeader.exists_handlesAll firstOfThree (by decide) false startedLeader_serving hreqs
  obtain ⟨s', hsame⟩ := hall _ _ startedStorage _ _ _ _ startedStorage_idle
    (ShardedKV.contents_empty _) startedLeader_serving hreqs hrun
  obtain ⟨s'', hhandle⟩ := startedStorage_idle.handleAll hreqs
  rw [hhandle, hrun.serves startedLeader_serving hreqs] at hsame
  simp [serveAll, serve, startedStorage] at hsame

end NeuralKV
