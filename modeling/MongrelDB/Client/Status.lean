import MongrelDB.Client.Extract

/-!
# Decoding the status of a query

`parse_commit_hlc`, `parse_durable_outcome` and `parse_query_status_json`. The scratch variables
`s`, `n`, `u`, `b`, `hlcRaw` and `obj` are threaded from read to read as in the source, where a
read that finds nothing leaves them as they are.
-/

namespace MongrelDB

open Text Traced

def parseCommitHlc (plat : Platform) (json : Bytes) : Call (Option CommitHlc) := do
  let (found, phys) ← getUint64 json (ascii "physical_micros") 0
  if !found then return none
  let hlc : CommitHlc := { physicalMicros := phys }
  let (found, logical) ← getInt plat json (ascii "logical") 0
  let hlc := if found then { hlc with logical := logical.toUInt64.toUInt32 } else hlc
  let (found, tie) ← getInt plat json (ascii "node_tiebreaker") 0
  let hlc := if found then { hlc with nodeTiebreaker := tie.toUInt64.toUInt32 } else hlc
  return some hlc

def parseDurableOutcome (plat : Platform) (json : Bytes) : Call DurableOutcome := do
  let out : DurableOutcome := {}
  if json.isEmpty then return out
  let (found, b) ← getBool json (ascii "committed") false
  let out := if found then { out with committed := some b } else out
  let (found, n) ← getInt plat json (ascii "committed_statements") 0
  let out := if found then { out with committedStatements := some n } else out
  let (found, u) ← getUint64 json (ascii "last_commit_epoch") 0
  let out := if found then { out with lastCommitEpoch := some u } else out
  let (found, s) ← getString json (ascii "last_commit_epoch_text") []
  let out := if found then { out with lastCommitEpochText := some s } else out
  let (found, hlcRaw) ← getObjectRaw json (ascii "last_commit_hlc") []
  let out ← if found then do
      let hlc ← parseCommitHlc plat hlcRaw
      pure { out with lastCommitHlc := hlc }
    else pure out
  let (found, n) ← getInt plat json (ascii "first_commit_statement_index") n
  let out := if found then { out with firstCommitStatementIndex := some n } else out
  let (found, n) ← getInt plat json (ascii "last_commit_statement_index") n
  let out := if found then { out with lastCommitStatementIndex := some n } else out
  let (found, n) ← getInt plat json (ascii "completed_statements") n
  let out := if found then { out with completedStatements := some n } else out
  let (found, n) ← getInt plat json (ascii "statement_index") n
  let out := if found then { out with statementIndex := some n } else out
  let (found, s) ← getString json (ascii "serialization") s
  let out := if found then { out with serialization := s } else out
  let (found, s) ← getString json (ascii "serialization_state") s
  let out := if found then { out with serializationState := some s } else out
  let (found, s) ← getString json (ascii "terminal_state") s
  let out := if found then { out with terminalState := some s } else out
  return out

def parseQueryStatusJson (plat : Platform) (json : Bytes) : Call QueryStatus := do
  let st : QueryStatus := { rawJson := json }
  let (found, s) ← getString json (ascii "query_id") []
  let st := if found then { st with queryId := s } else st
  let (found, s) ← getString json (ascii "status") s
  let st := if found then { st with status := s } else st
  let (found, s) ← getString json (ascii "state") s
  let st := if found then { st with state := s } else st
  let (found, s) ← getString json (ascii "server_state") s
  let st := if found then { st with serverState := s } else { st with serverState := st.state }
  let (found, s) ← getString json (ascii "terminal_state") s
  let st := if found then { st with terminalState := some s } else st
  let (found, b) ← getBool json (ascii "committed") false
  let st := if found then { st with committed := some b } else st
  let (found, n) ← getInt plat json (ascii "committed_statements") 0
  let st := if found then { st with committedStatements := some n } else st
  let (found, u) ← getUint64 json (ascii "last_commit_epoch") 0
  let st := if found then { st with lastCommitEpoch := some u } else st
  let (found, s) ← getString json (ascii "last_commit_epoch_text") s
  let st := if found then { st with lastCommitEpochText := some s } else st
  let (found, hlcRaw) ← getObjectRaw json (ascii "last_commit_hlc") []
  let st ← if found then do
      let hlc ← parseCommitHlc plat hlcRaw
      pure { st with lastCommitHlc := hlc }
    else pure st
  let (found, n) ← getInt plat json (ascii "first_commit_statement_index") n
  let st := if found then { st with firstCommitStatementIndex := some n } else st
  let (found, n) ← getInt plat json (ascii "last_commit_statement_index") n
  let st := if found then { st with lastCommitStatementIndex := some n } else st
  let (found, n) ← getInt plat json (ascii "completed_statements") n
  let st := if found then { st with completedStatements := some n } else st
  let (found, n) ← getInt plat json (ascii "statement_index") n
  let st := if found then { st with statementIndex := some n } else st
  let (found, s) ← getString json (ascii "cancel_outcome") s
  let st := if found then { st with cancelOutcome := some s } else st
  let (found, s) ← getString json (ascii "cancellation_reason") s
  let st := if found then { st with cancellationReason := s } else st
  let (found, b) ← getBool json (ascii "retryable") b
  let st := if found then { st with retryable := b } else st
  let (found, obj) ← getObjectRaw json (ascii "outcome") []
  let st ← if found then do
      let outcome ← parseDurableOutcome plat obj
      pure { st with outcome := outcome }
    else pure st
  let (found, obj) ← getObjectRaw json (ascii "durable") obj
  let st ← if found then do
      let durable ← parseDurableOutcome plat obj
      pure { st with durable := some durable }
    else pure st
  return st

end MongrelDB
