import MalachiteMempool.Node.Custody

/-! # What a node broadcasts

A broadcast is made while handling a check result that still has its reply
port, that is, the result of a local `Add`.  The custody of reply ports then
says whose `Add` it was: every broadcast has a source of its own among the
`Add`s the node has handled.
-/

namespace MalachiteMempool

namespace Record

/-- The local submission whose result made the record broadcast. -/
def source (r : Record) : Option (PortId × RawTx) :=
  if r.broadcasts.isEmpty then none else r.returns

theorem Faithful.broadcasts_eq {config : MempoolConfig} {r : Record}
    (faithful : r.Faithful config) :
    r.broadcasts = r.source.toList.map (fun s => batchOf s.2) := by
  rcases faithful.broadcast_cases with silent | ⟨tx, result, port, msg, made, _⟩
  · simp [source, silent]
  · simp [source, made, returns, Msg.returns, msg, Msg.check, token]

theorem Faithful.of_source {config : MempoolConfig} {r : Record} (faithful : r.Faithful config)
    {port : PortId} {tx : RawTx} (isSource : r.source = some (port, tx)) :
    ∃ result hash, r.msg = .checkTxResult tx result (some port) ∧ r.broadcasts = [batchOf tx] ∧
      r.inserted = some (hash, tx) := by
  rcases faithful.broadcast_cases with silent | ⟨tx', result, port', msg, made, hash, inserted⟩
  · simp [source, silent] at isSource
  · simp only [source, made, returns, Msg.returns, msg, Msg.check, token] at isSource
    obtain ⟨rfl, rfl⟩ := Prod.mk.inj (Option.some.inj isSource)
    exact ⟨result, hash, msg, made, inserted⟩

theorem returns_of_source {r : Record} {s : PortId × RawTx} (isSource : r.source = some s) :
    r.returns = some s := by
  unfold source at isSource
  split at isSource
  · cases isSource
  · exact isSource

end Record

namespace Node

def broadcasts (n : Node) : List MempoolTransactionBatch := n.pool.log.flatMap Record.broadcasts

/-- The sources of the broadcasts, in their order. -/
def sources (n : Node) : List (PortId × RawTx) := n.pool.log.filterMap Record.source

/-- The `Add`s the mempool has handled. -/
def addsHandled (n : Node) : List (PortId × RawTx) :=
  (n.pool.log.map Record.msg).filterMap Msg.request

namespace Single

variable {config : MempoolConfig} {n : Node}

theorem broadcasts_eq (single : n.Single config) :
    n.broadcasts = n.sources.map (fun s => batchOf s.2) := by
  have each := fun r member => (single.faithful r member).broadcasts_eq
  unfold broadcasts sources
  rw [List.filterMap_eq_flatMap_toList, List.map_flatMap]
  exact List.flatMap_congr each

/-- No reply port comes back twice. -/
theorem returned_once (single : n.Single config) :
    ((n.pool.log.filterMap Record.returns).map Prod.fst).Nodup := by
  rw [List.nodup_iff_count_le_one]
  intro port
  have placed := single.port_places port
  have counted : ((n.pool.log.filterMap Record.returns).map Prod.fst).count port =
      (n.pool.log.filterMap Record.returns).countP (fun t => t.1 == port) := by
    rw [List.count, List.countP_map]
    rfl
  rw [counted]
  split at placed <;> omega

theorem sources_nodup (single : n.Single config) : (n.sources.map Prod.fst).Nodup := by
  have fewer : ∀ log : List Record,
      (log.filterMap Record.source).Sublist (log.filterMap Record.returns) := by
    intro log
    induction log with
    | nil => exact .slnil
    | cons r rest ih =>
        cases isSource : r.source with
        | some s =>
            rw [List.filterMap_cons_some isSource,
              List.filterMap_cons_some (Record.returns_of_source isSource)]
            exact ih.cons_cons s
        | none =>
            rw [List.filterMap_cons_none isSource]
            cases returned : r.returns with
            | none => rwa [List.filterMap_cons_none returned]
            | some t =>
                rw [List.filterMap_cons_some returned]
                exact ih.cons t
  exact single.returned_once.sublist ((fewer n.pool.log).map Prod.fst)

/-- A port that came back belongs to an `Add` that was handled before. -/
theorem handled_of_returned (single : n.Single config) {port : PortId} {tx : RawTx}
    (returned : (port, tx) ∈ n.pool.log.filterMap Record.returns) :
    (port, tx) ∈ n.addsHandled := by
  have asked := single.asked_of_returned returned
  have back : 0 < (n.pool.log.filterMap Record.returns).countP (fun t => t.1 == port) :=
    List.countP_pos_iff.mpr ⟨_, returned, by simp⟩
  rcases single.handled_or_waiting asked with ⟨r, member, msg⟩ | waiting
  · exact List.mem_filterMap.mpr ⟨_, List.mem_map_of_mem member, by rw [msg]; rfl⟩
  · have requested := requested_countP.mp ⟨tx, waiting⟩
    have placed := single.port_places port
    split at placed <;> omega

theorem mem_sources (single : n.Single config) {port : PortId} {tx : RawTx}
    (member : (port, tx) ∈ n.sources) :
    (∃ r ∈ n.pool.log, r.msg = .add tx port) ∧
      ∃ r ∈ n.pool.log, ∃ result hash, r.msg = .checkTxResult tx result (some port) ∧
        r.broadcasts = [batchOf tx] ∧ r.inserted = some (hash, tx) := by
  obtain ⟨r, inside, isSource⟩ := List.mem_filterMap.mp member
  obtain ⟨result, hash, msg, made, inserted⟩ := (single.faithful r inside).of_source isSource
  have returned : (port, tx) ∈ n.pool.log.filterMap Record.returns :=
    List.mem_filterMap.mpr ⟨r, inside, Record.returns_of_source isSource⟩
  obtain ⟨msg', inLog, requests⟩ := List.mem_filterMap.mp (single.handled_of_returned returned)
  obtain ⟨r', inside', rfl⟩ := List.mem_map.mp inLog
  refine ⟨⟨r', inside', ?_⟩, r, inside, result, hash, msg, made, inserted⟩
  cases added : r'.msg with
  | add tx' port' =>
      rw [added] at requests
      obtain ⟨rfl, rfl⟩ := Prod.mk.inj (Option.some.inj requests)
      rfl
  | subscribe | networkEvent | checkTxResult | take | remove =>
      rw [added] at requests
      cases requests

theorem broadcasts_le_adds (single : n.Single config) :
    n.broadcasts.length ≤ n.addsHandled.length ∧ n.addsHandled.length ≤ n.asked.length := by
  constructor
  · have inside : n.sources.map Prod.fst ⊆ n.addsHandled.map Prod.fst := by
      apply List.map_subset
      intro s member
      obtain ⟨r, inLog, isSource⟩ := List.mem_filterMap.mp member
      exact single.handled_of_returned
        (List.mem_filterMap.mpr ⟨r, inLog, Record.returns_of_source isSource⟩)
    have shorter := (single.sources_nodup.subperm inside).length_le
    simpa [single.broadcasts_eq] using shorter
  · have all := congrArg List.length single.requests
    simp only [received, List.filterMap_append, List.length_append, issued, List.length_map,
      List.length_zipIdx] at all
    unfold addsHandled
    omega

end Single

end Node

end MalachiteMempool
