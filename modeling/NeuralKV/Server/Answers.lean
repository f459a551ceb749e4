import NeuralKV.Persistence.Durability
import NeuralKV.Raft.Rejections
import NeuralKV.Server.Modes
import NeuralKV.Server.Session

/-!
# Every answer fits into a frame

A value comes in behind a request header and goes out behind a response header, under the same cap
on the payload: 17 bytes and a key of at least one byte in a request, 18 bytes in a response.  What
fits into a request fits into an answer, with nothing to spare.

* `Sendable`, `encodeClientResponse_toWire` — the values whose answers `EncodeClientResponse` takes.
* `storage_sendable` — without a `RaftNode`: what is written, replayed and held is sendable in every
  run whose calls come from accepted requests and whose recoveries find records of such calls.
* `cluster_sendable` — on a cluster: entries in threads, logs and requests on their way, what the
  nodes hold, and the answers given.
* `answers_fit` — **every answer to a client is encoded**, so that the branch that drops a session
  for a failed encoding is never taken for a client's request.
-/

set_option autoImplicit false

namespace NeuralKV

open Protocol (decodeClientRequest encodeClientResponse)

/-! ## Sizes -/

/-- `DecodeClientRequest` accepts the request, from a frame's payload. -/
def Protocol.ClientRequest.Accepted (req : Protocol.ClientRequest) : Prop :=
  ∃ payload : Bytes, payload.length ≤ Protocol.kMaxPayloadSize ∧
    decodeClientRequest payload = .ok req

/-- A value that fits into an answer. -/
def Sendable (value : Bytes) : Prop := 18 + value.length ≤ Protocol.kMaxPayloadSize

theorem sendable_nil : Sendable [] := by
  unfold Sendable
  decide

/-- **What fits into a request fits into an answer**: the key has at least one byte. -/
theorem Protocol.ClientRequest.Accepted.sendable {req : Protocol.ClientRequest}
    (h : req.Accepted) : Sendable req.value := by
  obtain ⟨payload, hsize, hdecode⟩ := h
  obtain ⟨⟨hkey, _⟩, rfl⟩ := (Protocol.decodeClientRequest_iff hsize).mp hdecode
  have hpos := List.length_pos_iff.mpr hkey
  rw [Protocol.ClientRequest.payload_length] at hsize
  unfold Sendable
  omega

/-- Some accepted request has this opcode, key and value. -/
def Requested (opcode : Protocol.Opcode) (key value : Bytes) : Prop :=
  ∃ req : Protocol.ClientRequest, req.Accepted ∧ req.opcode = opcode ∧ req.key = key ∧
    req.value = value

theorem Requested.sendable {opcode : Protocol.Opcode} {key value : Bytes}
    (h : Requested opcode key value) : Sendable value := by
  obtain ⟨req, hacc, _, _, rfl⟩ := h
  exact hacc.sendable

theorem requested_iff {opcode : Protocol.Opcode} {key value : Bytes} :
    Requested opcode key value ↔
      key ≠ [] ∧ (value = [] ↔ opcode ≠ .kSet) ∧
        17 + key.length + value.length ≤ Protocol.kMaxPayloadSize := by
  have hcheck : Protocol.checkValue value opcode = .ok () ↔ (value = [] ↔ opcode ≠ .kSet) := by
    cases opcode <;> simp [Protocol.checkValue, Fields.require_ok]
  constructor
  · rintro ⟨req, ⟨payload, hsize, hdecode⟩, rfl, rfl, rfl⟩
    obtain ⟨⟨hkey, hvalue⟩, rfl⟩ := (Protocol.decodeClientRequest_iff hsize).mp hdecode
    rw [Protocol.ClientRequest.payload_length] at hsize
    exact ⟨hkey, hcheck.mp hvalue, by omega⟩
  · rintro ⟨hkey, hvalue, hsize⟩
    let req : Protocol.ClientRequest := { opcode, key, value }
    have hlen : req.payload.length ≤ Protocol.kMaxPayloadSize := by
      rw [Protocol.ClientRequest.payload_length]
      show 8 + 1 + 4 + key.length + 4 + value.length ≤ _
      omega
    exact ⟨req, ⟨req.payload, hlen, (Protocol.decodeClientRequest_iff hlen).mpr
      ⟨⟨hkey, hcheck.mpr hvalue⟩, rfl⟩⟩, rfl, rfl, rfl⟩

instance (opcode : Protocol.Opcode) (key value : Bytes) : Decidable (Requested opcode key value) :=
  decidable_of_iff _ requested_iff.symm

/-- The response as it is sent, with the echoed request id. -/
def ClientResponse.toWire (requestId : UInt64) (resp : ClientResponse) :
    Protocol.ClientResponse where
  requestId := requestId
  status := resp.status
  value := resp.value
  leaderHint := UInt32.ofNat resp.leaderHint

/-- An answer that `EncodeClientResponse` takes, for any request id. -/
def ClientResponse.Encodes (resp : ClientResponse) : Prop :=
  ∀ requestId, ∃ encoded, encodeClientResponse (resp.toWire requestId) = .ok encoded

theorem encodeClientResponse_toWire {resp : ClientResponse} (h : Sendable resp.value) :
    resp.Encodes := by
  intro requestId
  refine ⟨_, Protocol.encodeFrame_ok.mpr ⟨?_, rfl⟩⟩
  show 8 + 2 + 4 + resp.value.length + 4 ≤ Protocol.kMaxPayloadSize
  unfold Sendable at h
  omega

/-! ## Stores -/

/-- A record that brings a sendable value into the store, or none. -/
def SendableRecord (record : WalRecord) : Prop := record.op = .kSet → Sendable record.value

def SendableStore (kv : ShardedKV) : Prop :=
  ∀ key value, kv.contents key = some value → Sendable value

theorem SendableStore.empty (hash : Bytes → Nat) : SendableStore (ShardedKV.empty hash) := by
  intro key value h
  simp at h

theorem SendableStore.applyRecord {kv : ShardedKV} {record : WalRecord} (h : SendableStore kv)
    (hr : SendableRecord record) : SendableStore (applyRecord kv record) := by
  by_cases hkey : record.key = []
  · -- the store refuses an empty key
    have hsame : NeuralKV.applyRecord kv record = kv := by
      unfold NeuralKV.applyRecord ShardedKV.set ShardedKV.delete
      cases record.op <;> simp [hkey]
    rw [hsame]
    exact h
  · intro key value hvalue
    rw [contents_applyRecord kv hkey, contentsAfter, Function.update_apply] at hvalue
    split at hvalue
    · cases hop : record.op with
      | kSet =>
        rw [hop] at hvalue
        cases hvalue
        exact hr hop
      | kDelete =>
        rw [hop] at hvalue
        cases hvalue
    · exact h key value hvalue

theorem SendableStore.replay {records : List WalRecord} :
    ∀ {kv : ShardedKV}, SendableStore kv → (∀ r ∈ records, SendableRecord r) →
      SendableStore (replay kv records) := by
  induction records with
  | nil =>
    intro kv h _
    exact h
  | cons r records ih =>
    intro kv h hall
    exact ih (h.applyRecord (hall r List.mem_cons_self))
      fun q hq => hall q (List.mem_cons_of_mem _ hq)

theorem SendableStore.getResponse {kv : ShardedKV} (h : SendableStore kv) (key : Bytes) :
    Sendable (getResponse kv key).value := by
  by_cases hkey : key = []
  · unfold NeuralKV.getResponse ShardedKV.get
    rw [if_pos hkey]
    exact sendable_nil
  · rw [getResponse_eq hkey]
    cases hvalue : kv.contents key with
    | none => exact sendable_nil
    | some value => exact h key value hvalue

/-! ## Without a RaftNode -/

/-- Calls come from accepted requests, and a recovery finds records that such calls have written. -/
def servesRequests (s : Machine) : StorageAction → Prop
  | .set key value => Requested .kSet key value
  | .delete key => Requested .kDelete key []
  | .openStorage => ∀ r ∈ (scanWal s.file).frames, r ∈ s.written
  | _ => True

instance (s : Machine) (a : StorageAction) : Decidable (servesRequests s a) := by
  unfold servesRequests
  split <;> infer_instance

/-- The clause on recoveries holds by itself as long as no record is appended behind a torn one. -/
theorem recovers_written {hash : Bytes → Nat} {s : Machine}
    (hr : Machine.Run hash appendsWhole s) : ∀ r ∈ (scanWal s.file).frames, r ∈ s.written := by
  obtain ⟨rs, t, S⟩ := run_stored hr
  rw [S.file, scanWal_frames S.encodable S.torn]
  exact S.written

/-- The answers `Handle` can give without a `RaftNode`: what the store holds under the key, or the
status of a write. -/
inductive StorageAnswer (storage : DurableStorage) (req : Protocol.ClientRequest) :
    ClientResponse → Prop where
  | get (hop : req.opcode = .kGet) : StorageAnswer storage req (getResponse storage.kv req.key)
  | write (hop : req.opcode ≠ .kGet) (status : Status) :
      StorageAnswer storage req { status := toResponseStatus status.code }

/-- The sequential handler gives such answers. -/
theorem DurableStorage.handle_answer {s s' : DurableStorage} {req : Protocol.ClientRequest}
    {resp : ClientResponse} (h : s.handle req = some (resp, s')) : StorageAnswer s req resp := by
  unfold DurableStorage.handle at h
  cases hop : req.opcode with
  | kSet =>
    rw [hop] at h
    obtain ⟨result, _, hresult⟩ := Option.map_eq_some_iff.mp h
    cases hresult
    exact .write (by simp [hop]) result.1
  | kGet =>
    rw [hop] at h
    cases h
    exact .get hop
  | kDelete =>
    rw [hop] at h
    obtain ⟨result, _, hresult⟩ := Option.map_eq_some_iff.mp h
    cases hresult
    exact .write (by simp [hop]) result.1

/-- What the machine has written and what its process holds and is about to write. -/
structure SendableMachine (s : Machine) : Prop where
  written : ∀ r ∈ s.written, SendableRecord r
  store : ∀ p, s.process = some p → SendableStore p.storage.kv
  calls : ∀ p, s.process = some p → ∀ c ∈ p.calls, SendableRecord c.record

section Storage

variable {hash : Bytes → Nat} {s s' : Machine} {a : StorageAction}

/-- The record of a call from an accepted request. -/
theorem servesRequests_record {record : WalRecord} (ha : servesRequests s a)
    (hreq : a.request = some (.ok record)) : SendableRecord record := by
  cases a with
  | set key value =>
    have hrec : setRecord key value = .ok record := Option.some.inj hreq
    unfold setRecord at hrec
    split at hrec
    · cases hrec
    · split at hrec
      · cases hrec
      · cases hrec
        exact fun _ => Requested.sendable ha
  | delete key =>
    have hrec : deleteRecord key = .ok record := Option.some.inj hreq
    unfold deleteRecord at hrec
    split at hrec
    · cases hrec
    · cases hrec
      exact fun hop => by cases hop
  | _ => cases hreq

/-- A thread that goes on with the same record. -/
theorem SendableMachine.put (h : SendableMachine s) {p : Process} (hp : s.process = some p)
    (k : Nat) {next : Option Call} (hnext : ∀ c, next = some c → SendableRecord c.record) :
    ∀ c ∈ Runs.putThread p.calls k next, SendableRecord c.record := by
  intro c hc
  rcases Runs.mem_putThread hc with h₁ | h₁
  · exact hnext c h₁
  · exact h.calls p hp c h₁

/-- A call that goes on with its record, or ends. -/
theorem SendableMachine.kept (h : SendableMachine s) {p : Process} {k : Nat} {c : Call}
    {wal : WalWriter} {next : Option Call} {written acked : List WalRecord} {file : Bytes}
    {durable : Nat} (hp : s.process = some p) (hc : p.calls[k]? = some c)
    (hnext : ∀ c', next = some c' → SendableRecord c.record → SendableRecord c'.record)
    (hw : ∀ r ∈ written, SendableRecord r) :
    SendableMachine ⟨file, durable, some (p.put wal k next), written, acked⟩ := by
  have hrec := h.calls p hp c (List.mem_of_getElem? hc)
  refine ⟨hw, ?_, ?_⟩
  · rintro _ ⟨⟩
    exact h.store p hp
  · rintro _ ⟨⟩
    exact h.put hp k fun c' hc' => hnext c' hc' hrec

theorem SendableMachine.step (h : SendableMachine s) (ha : servesRequests s a)
    (hs : s.step hash a = some s') : SendableMachine s' := by
  have ended : ∀ {c : Call} (c' : Call), none = some c' →
      SendableRecord c.record → SendableRecord c'.record := by
    rintro c c' ⟨⟩
  have same : ∀ {record : WalRecord} {stage : CallStage} (c' : Call),
      some { record := record, stage := stage } = some c' →
        SendableRecord record → SendableRecord c'.record := by
    rintro record stage _ ⟨⟩ hrec
    exact hrec
  cases storage_move hs with
  | idle => exact h
  | opened _ hopen =>
    refine ⟨h.written, ?_, ?_⟩
    · rintro _ ⟨⟩
      unfold DurableStorage.Open recoverFromWal at hopen
      simp only at hopen
      split at hopen
      · cases hopen
        exact (SendableStore.empty hash).replay fun r hr => h.written r (ha r hr)
      · cases hopen
    · rintro _ ⟨⟩ c hc
      cases hc
  | crash _ =>
    refine ⟨h.written, ?_, ?_⟩
    · rintro _ ⟨⟩
    · rintro _ ⟨⟩
  | called hp hreq =>
    refine ⟨h.written, ?_, ?_⟩
    · have hstore := h.store _ hp
      rintro _ ⟨⟩
      exact hstore
    · rintro _ ⟨⟩ c hc
      rcases List.mem_append.mp hc with hc | hc
      · exact h.calls _ hp c hc
      · rw [List.mem_singleton.mp hc]
        exact servesRequests_record ha hreq
  | appended hp hc _ _ =>
    refine h.kept hp hc ?_ ?_
    · rintro _ ⟨⟩ hrec
      exact hrec
    · intro r hr
      rcases List.mem_append.mp hr with hr | hr
      · exact h.written r hr
      · rw [List.mem_singleton.mp hr]
        exact h.calls _ hp _ (List.mem_of_getElem? hc)
  | appendFailed hp hc _ _ _ => exact h.kept hp hc ended h.written
  | refused hp hc _ => exact h.kept hp hc ended h.written
  | covered hp hc _ _ => exact h.kept hp hc same h.written
  | waits hp hc _ _ => exact h.kept hp hc same h.written
  | leads hp hc _ _ _ => exact h.kept hp hc same h.written
  | flushed hp hc => exact h.kept hp hc same h.written
  | flushFailed hp hc => exact h.kept hp hc ended h.written
  | @applied k p record hp hc _ =>
    refine ⟨h.written, ?_, ?_⟩
    · rintro _ ⟨⟩
      exact (h.store _ hp).applyRecord (h.calls _ hp _ (List.mem_of_getElem? hc))
    · have hcalls := h.put hp k (fun c (hnone : none = some c) => by cases hnone)
      rintro _ ⟨⟩
      exact hcalls

theorem storage_sendable (hr : Machine.Run hash servesRequests s) : SendableMachine s := by
  induction hr with
  | init =>
    refine ⟨?_, ?_, ?_⟩
    · rintro r ⟨⟩
    · rintro p ⟨⟩
    · rintro p ⟨⟩
  | step _ ha hs ih => exact ih.step ha hs

theorem SendableStore.storageAnswer {storage : DurableStorage} (h : SendableStore storage.kv)
    {req : Protocol.ClientRequest} {resp : ClientResponse} (ha : StorageAnswer storage req resp) :
    resp.Encodes := by
  cases ha with
  | get _ => exact encodeClientResponse_toWire (h.getResponse req.key)
  | write _ status => exact encodeClientResponse_toWire sendable_nil

end Storage

/-! ## On a cluster -/

open Cluster

/-- The request that `Handle` turns into an entry with this operation. -/
def WalOp.opcode : WalOp → Protocol.Opcode
  | .kSet => .kSet
  | .kDelete => .kDelete

/-- Writes come from accepted requests. -/
def writesRequested (_ : Cluster) : Action → Prop
  | .act _ (.write op key value) => Requested op.opcode key value
  | _ => True

instance (s : Cluster) (a : Action) : Decidable (writesRequested s a) := by
  unfold writesRequested
  split <;> infer_instance

/-- The answer to a client that an event records. -/
def Event.answer : Event → Option ClientResponse
  | .answered _ _ resp => some resp
  | .readDone _ _ _ _ _ _ resp => some resp
  | _ => none

/-- The entries on their way to a store, what the stores hold, and the answers given. -/
structure SendableCluster (m : Membership) (s : Cluster) : Prop where
  writes : ∀ k, ∀ w ∈ (s.servers k).writes, SendableRecord w.entry
  logs : ∀ k, ∀ e ∈ (s.servers k).raft.log.entries, SendableRecord e
  requests : ∀ i ∈ s.inFlight, ∀ r, s.rpcs[i]? = some r → ∀ e ∈ r.req.entries, SendableRecord e
  stores : ∀ k, SendableStore (s.servers k).raft.storage.kv
  answers : ∀ ev ∈ s.history, ∀ resp, ev.answer = some resp → Sendable resp.value

section Cluster

variable {m : Membership} {h : Hist} {s s' : Cluster} {a : Action} {n : NodeId} {r' : RaftNode}
  {evs : List Event}

/-- The answer to a write carries no value, and its thread keeps its entry. -/
theorem Write.step_answers {raft raft' : RaftNode} {w : Write} {timedOut : Bool}
    {next : Option Write} {events : List Event}
    (hs : w.step n raft timedOut = some (raft', next, events)) :
    (∀ w', next = some w' → w'.entry = w.entry) ∧
      ∀ ev ∈ events, ∀ resp, ev.answer = some resp → resp.value = [] := by
  have after : ∀ e status, (∀ w', (w.afterPropose n e status).1 = some w' → w'.entry = w.entry) ∧
      ∀ ev ∈ (w.afterPropose n e status).2, ∀ resp, ev.answer = some resp → resp.value = [] := by
    intro e status
    unfold Write.afterPropose
    split
    · simp [Event.answer]
    · split
      · simp
      · simp [Event.answer]
  unfold Write.step at hs
  split at hs
  · split at hs <;> cases hs <;> simp
  · split at hs
    · cases hs
      exact after none _
    · cases hs
      simp [Event.answer]
  · split at hs
    · cases hs
    · cases hs
      obtain ⟨hnext, hevents⟩ := after (some _) _
      refine ⟨hnext, ?_⟩
      intro ev hev resp hresp
      rcases List.mem_cons.mp hev with rfl | hev
      · cases hresp
      · exact hevents ev hev resp hresp
  · cases hs
    simp [Event.answer]

/-- Every other step: the answers it gives are a stored value or none. -/
theorem move_answers (mv : Move m s a s')
    (ha : ∀ k thread timedOut, a ≠ .act k (.writeStep thread timedOut)) :
    ∀ ev ∈ s'.history, ∀ resp, ev.answer = some resp → ev ∈ s.history ∨ resp.value = [] ∨
      ∃ k key, resp = getResponse (s.servers k).raft.storage.kv key := by
  -- only the events of this step are to be looked at
  have old : ∀ {evs : List Event},
      (∀ ev ∈ evs, ∀ resp, ev.answer = some resp → resp.value = [] ∨
        ∃ k key, resp = getResponse (s.servers k).raft.storage.kv key) →
      ∀ ev ∈ s.history ++ evs, ∀ resp, ev.answer = some resp → ev ∈ s.history ∨ resp.value = [] ∨
        ∃ k key, resp = getResponse (s.servers k).raft.storage.kv key := by
    intro evs hnew ev hev resp hresp
    rcases List.mem_append.mp hev with hev | hev
    · exact Or.inl hev
    · exact Or.inr (hnew ev hev resp hresp)
  cases mv with
  | tick d => exact fun ev hev _ _ => Or.inl hev
  | replicateIdle _ => exact fun ev hev _ _ => Or.inl hev
  | endElection _ _ =>
    refine old ?_
    split <;> simp [Event.answer]
  | replicateReply _ _ _ _ _ _ =>
    refine old ?_
    split <;> simp [Event.answer]
  | writeStep _ _ _ => exact absurd rfl (ha _ _ _)
  | readStep _ _ hmove =>
    cases hmove with
    | done _ =>
      refine old ?_
      intro ev hev resp hresp
      rw [List.mem_singleton.mp hev] at hresp
      cases hresp
      exact Or.inr ⟨_, _, rfl⟩
    | refused _ =>
      refine old ?_
      intro ev hev resp hresp
      rw [List.mem_singleton.mp hev] at hresp
      cases hresp
      exact Or.inl rfl
    | _ => exact old (by simp [Event.answer])
  | _ => exact old (by simp)

/-- **The log stays sendable.** -/
theorem SendableCluster.log (C : SendableCluster m s) (S : Sim m h s) (mv : Move m s a s')
    (E : Effect m s a n r' evs) (hhist : s'.history = s.history ++ evs) :
    ∀ e ∈ r'.log.entries, SendableRecord e := by
  have old := C.logs n
  cases E with
  | follows hf _ =>
    rw [hf.log]
    exact old
  | elected _ _ _ _ => exact old
  | proposed _ =>
    obtain ⟨w, hw, hentry⟩ := move_proposes mv hhist
    intro e he
    rcases List.mem_append.mp he with he | he
    · exact old e he
    · rw [List.mem_singleton.mp he, hentry]
      exact C.writes n w hw
  | @appended rpc r req ha hr hreq hcallee _ hprev =>
    intro e he
    rcases S.mem_appended hr hreq hcallee hprev he with he | he
    · exact old e he
    · subst ha
      have hin : rpc ∈ s.inFlight := by
        cases mv with
        | requestVote hin _ _ _ => exact hin
        | appendEntries hin _ _ _ => exact hin
      refine C.requests rpc hin r hr e ?_
      rw [hreq]
      exact he
  | @advanced r₁ _ _ _ hf _ _ _ =>
    show ∀ e ∈ r₁.log.entries, SendableRecord e
    rw [hf.log]
    exact old
  | restarted _ hr =>
    rw [(RaftNode.restart_spec (S.node n).contiguous hr).entries]
    exact old

/-- **The store stays sendable**: what is applied comes from the log. -/
theorem SendableCluster.store (C : SendableCluster m s) (I : HInv m h) (S : Sim m h s)
    (E : Effect m s a n r' evs) (hlog : ∀ e ∈ r'.log.entries, SendableRecord e) :
    SendableStore r'.storage.kv := by
  cases E.store I S with
  | same _ hst =>
    rw [hst]
    exact C.stores n
  | applied hst =>
    rw [hst]
    exact (C.stores n).replay fun e he =>
      hlog e (List.mem_of_mem_drop (List.mem_of_mem_take he))
  | restarted _ hr =>
    rw [(RaftNode.restart_spec (S.node n).contiguous hr).storage]
    exact (SendableStore.empty _).replay (C.logs n)

/-- **A step keeps everything sendable.** -/
theorem SendableCluster.step (C : SendableCluster m s) (I : HInv m h) (S : Sim m h s)
    (ha : writesRequested s a) (hs : s.step m a = some s') : SendableCluster m s' := by
  have mv := step_move hs
  obtain ⟨n, r', evs, E, rfl, hother, hhist⟩ := move_effect mv
  have hlog := C.log S mv E hhist
  have hlogs : ∀ k, ∀ e ∈ (s'.servers k).raft.log.entries, SendableRecord e := by
    intro k
    by_cases hk : k = n
    · subst hk
      exact hlog
    · rw [hother k hk]
      exact C.logs k
  have hstores : ∀ k, SendableStore (s'.servers k).raft.storage.kv := by
    intro k
    by_cases hk : k = n
    · subst hk
      exact C.store I S E hlog
    · rw [hother k hk]
      exact C.stores k
  have hrequests : ∀ i ∈ s'.inFlight, ∀ r, s'.rpcs[i]? = some r → ∀ e ∈ r.req.entries,
      SendableRecord e := by
    intro i hi r hr e he
    rcases move_undelivered mv i hi r hr with ⟨h₁, h₂⟩ | ⟨k, _, h₁⟩
    · exact C.requests i h₁ r h₂ e he
    · exact C.logs k e (h₁ he)
  by_cases hw : ∃ k thread timedOut, a = .act k (.writeStep thread timedOut)
  · obtain ⟨k, thread, timedOut, rfl⟩ := hw
    obtain ⟨w, raft, next, events, hw, hstep, rfl⟩ := step_writeStep hs
    obtain ⟨hnext, hevents⟩ := Write.step_answers hstep
    refine ⟨?_, hlogs, hrequests, hstores, ?_⟩
    · intro j w' hw'
      rcases mem_update (f := Server.writes) hw' with ⟨rfl, hw'⟩ | ⟨_, hw'⟩
      · rcases Runs.mem_putThread hw' with hw' | hw'
        · rw [hnext w' hw']
          exact C.writes j w (List.mem_of_getElem? hw)
        · exact C.writes j w' hw'
      · exact C.writes j w' hw'
    · intro ev hev resp hresp
      rcases List.mem_append.mp hev with hev | hev
      · exact C.answers ev hev resp hresp
      · rw [hevents ev hev resp hresp]
        exact sendable_nil
  · have hno : ∀ k thread timedOut, a ≠ .act k (.writeStep thread timedOut) :=
      fun k thread timedOut heq => hw ⟨k, thread, timedOut, heq⟩
    refine ⟨?_, hlogs, hrequests, hstores, ?_⟩
    · intro k w hw'
      rcases (move_writes mv hno).1 k w hw' with hold | ⟨op, key, value, rfl, rfl⟩
      · exact C.writes k w hold
      · exact fun _ => Requested.sendable ha
    · intro ev hev resp hresp
      rcases move_answers mv hno ev hev resp hresp with hold | hnil | ⟨k, key, rfl⟩
      · exact C.answers ev hold resp hresp
      · rw [hnil]
        exact sendable_nil
      · exact (C.stores k).getResponse key

theorem cluster_sendable {hash : Bytes → Nat} (hr : Cluster.Run m hash writesRequested s) :
    SendableCluster m s := by
  induction hr with
  | init =>
    refine ⟨?_, ?_, ?_, fun _ => SendableStore.empty hash, ?_⟩
    · rintro k w ⟨⟩
    · rintro k e ⟨⟩
    · rintro i ⟨⟩
    · rintro ev ⟨⟩
  | step hr ha hs ih =>
    obtain ⟨h, I, S⟩ := run_simulated hr
    exact ih.step I S ha hs

end Cluster

/-! ## Result -/

/-- The loop of a session passes on an answer that is encoded. -/
theorem frameReaction_encodes {σ : Type} {h : RequestHandler σ} {s : σ}
    {req : Protocol.ClientRequest} {resp : ClientResponse}
    (hresp : (h.handle s req).2 = resp.toWire req.requestId) (henc : resp.Encodes)
    (write : σ → Bytes → σ × Bool) :
    ∃ encoded, frameReaction h write s (.clientRequest req) =
      ⟨(write (h.handle s req).1 encoded).1, [.handled (.clientRequest req), .wrote encoded],
        (write (h.handle s req).1 encoded).2⟩ := by
  obtain ⟨encoded, hencoded⟩ := henc req.requestId
  refine ⟨encoded, ?_⟩
  simp only [frameReaction, RequestHandler.answer, hresp, hencoded]

/-- **Every answer to a client fits into a frame**, without a `RaftNode` and with one, reads from a
follower's store included; and a session passes such an answer on. -/
theorem answers_fit :
    (∀ (hash : Bytes → Nat) (s : Machine), Machine.Run hash servesRequests s →
      ∀ p, s.process = some p → ∀ (req : Protocol.ClientRequest) (resp : ClientResponse),
        StorageAnswer p.storage req resp → resp.Encodes) ∧
      (∀ (m : Membership) (hash : Bytes → Nat) (s : Cluster), Cluster.Run m hash writesRequested s →
        (∀ ev ∈ s.history, ∀ resp, ev.answer = some resp → resp.Encodes) ∧
          ∀ k key, (getResponse (s.servers k).raft.storage.kv key).Encodes) ∧
      ∀ (σ : Type) (h : RequestHandler σ) (s : σ) (req : Protocol.ClientRequest)
        (resp : ClientResponse), (h.handle s req).2 = resp.toWire req.requestId → resp.Encodes →
        ∀ write, ∃ encoded, frameReaction h write s (.clientRequest req) =
          ⟨(write (h.handle s req).1 encoded).1, [.handled (.clientRequest req), .wrote encoded],
            (write (h.handle s req).1 encoded).2⟩ := by
  refine ⟨?_, ?_, ?_⟩
  · intro hash s hr p hp req resp hresp
    exact ((storage_sendable hr).store p hp).storageAnswer hresp
  · intro m hash s hr
    have C := cluster_sendable hr
    refine ⟨?_, ?_⟩
    · intro ev hev resp hresp
      exact encodeClientResponse_toWire (C.answers ev hev resp hresp)
    · intro k key
      exact encodeClientResponse_toWire ((C.stores k).getResponse key)
  · intro σ h s req resp hresp henc write
    exact frameReaction_encodes hresp henc write

/-- A value that was set, recovered after a crash and read; and a write that a follower refuses. -/
theorem answers_fit_recovered :
    (∃ s p, Machine.Run (fun _ => 0) servesRequests s ∧ s.process = some p ∧
      getResponse p.storage.kv [97] = { status := .kOk, value := [49] } ∧
      (getResponse p.storage.kv [97]).Encodes) ∧
    ∃ s : Cluster, Cluster.Run Membership.trio (fun _ => 0) writesRequested s ∧
      Event.answered 1 none { status := .kWrongLeader } ∈ s.history ∧
      ({ status := .kWrongLeader } : ClientResponse).Encodes := by
  refine ⟨?_, ?_⟩
  · obtain ⟨s, hr, hs⟩ : ∃ s : Machine, Machine.Run (fun _ => 0) servesRequests s ∧
        (s.process.any fun p => decide
          (getResponse p.storage.kv [97] = { status := .kOk, value := [49] })) = true :=
      Runs.exists_run
        [.openStorage, .set [97] [49], .append 0 .complete, .sync 0, .flush 0 none, .apply 0,
          .crash 100, .openStorage]
        (by decide +kernel)
    obtain ⟨p, hp, hget⟩ := Runs.exists_of_any hs
    refine ⟨s, p, hr, hp, of_decide_eq_true hget, ?_⟩
    exact answers_fit.1 _ s hr p hp { key := [97] } _ (.get rfl)
  · obtain ⟨s, hr, hs⟩ : ∃ s : Cluster, Cluster.Run Membership.trio (fun _ => 0) writesRequested s ∧
        decide (Event.answered 1 none { status := .kWrongLeader } ∈ s.history) = true :=
      Runs.exists_run
        [.act 1 (.write .kSet [97] [49]), .act 1 (.writeStep 0 false), .act 1 (.writeStep 0 false)]
        (by decide +kernel)
    have hmem := of_decide_eq_true hs
    exact ⟨s, hr, hmem, (answers_fit.2.1 _ _ s hr).1 _ hmem _ rfl⟩

end NeuralKV
