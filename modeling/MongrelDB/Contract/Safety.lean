import MongrelDB.Client.Http
import MongrelDB.Walker.RowSafety

/-!
# The decoders are safe on every text

Whatever the text, and wherever in it the walk begins, a decoder reads only inside it, moves the
cursor only forward and not past its end, and advances in every further round and in every nested
call; so it ends with a result or with a `QueryException`, and it sends nothing.
-/

namespace MongrelDB

open Text Traced Prog JsonParser

/-- Every walk over a text is safe. -/
theorem decoders_safe (plat : Platform) (body key : Bytes) (s : Bytes) (i : Int64) (u : UInt64)
    (n : Binary64) (b : Bool) :
    (∀ p, Safe Stop.IsQueryException skipValue p fun _ _ => True) ∧
    (∀ p, Safe Stop.IsQueryException readValue p fun _ _ => True) ∧
    SafeCall Stop.IsQueryException (getString body key s) ∧
    SafeCall Stop.IsQueryException (getNumber body key n) ∧
    SafeCall Stop.IsQueryException (getInt plat body key i) ∧
    SafeCall Stop.IsQueryException (getUint64 body key u) ∧
    SafeCall Stop.IsQueryException (getBool body key b) ∧
    SafeCall Stop.IsQueryException (getObjectRaw body key s) ∧
    SafeCall Stop.IsQueryException (getArrayRaw body key s) ∧
    SafeCall Stop.IsQueryException (parseQueryStatusJson plat body) ∧
    SafeCall Stop.IsQueryException (walk body decodeNames) ∧
    SafeCall Stop.IsQueryException (decodeQuery body) :=
  ⟨fun _ => safe_skipValue, fun _ => safe_readValue, safeCall_getString, safeCall_getNumber,
    safeCall_getInt, safeCall_getUint64, safeCall_getBool, safeCall_getObjectRaw,
    safeCall_getArrayRaw, safeCall_parseQueryStatusJson, safeCall_decodeNames,
    safeCall_decodeQuery⟩

end MongrelDB
