import MongrelDB.Client.Calls
import MongrelDB.Encoder.Indexes

/-!
# What the client writes for its other calls

The JSON values that the bodies of the calls without a serializer of their own stand for.
-/

namespace MongrelDB

open Text Json

/-! ### History retention -/

def retentionMembers (epochs : UInt64) : List (Bytes × Tree) :=
  [(ascii "history_retention_epochs", uint64Tree epochs)]

lemma denotesObj_retentionBody (epochs : UInt64) :
    DenotesObj (retentionBody epochs) (retentionMembers epochs) := by
  have hbody : retentionBody epochs =
      objectText [member "history_retention_epochs" (uint64Text epochs)] := by
    simp only [retentionBody, objectText_member, laterText_nil, List.append_assoc]
    rfl
  rw [hbody]
  exact denotesObj_objectText (.cons (denotes_member _ (denotes_uint64Text epochs)) .nil)

/-! ### SQL -/

def sqlMembers (statement : Bytes) : List (Bytes × Tree) :=
  [(ascii "sql", .str statement), (ascii "format", .str (ascii "json"))]

lemma denotesObj_sqlBody (statement : Bytes) :
    DenotesObj (sqlBody statement) (sqlMembers statement) := by
  have hbody : sqlBody statement = objectText
      [member "sql" (jsonEscape statement), member "format" (jsonEscape (ascii "json"))] := by
    simp only [sqlBody, objectText_member, laterText_member, laterText_nil, List.append_assoc]
    rfl
  rw [hbody]
  exact denotesObj_objectText (.cons (denotes_member _ (denotes_jsonEscape _))
    (.cons (denotes_member _ (denotes_jsonEscape _)) .nil))

/-! ### Text retrieval -/

/-- The members of a text retrieval; `k` is left to the daemon if it is not positive. -/
def retrieveTextMembers (table : Bytes) (embeddingColumn : Int64) (text : Bytes) (k : Int64) :
    List (Bytes × Tree) :=
  (ascii "table", .str table) :: (ascii "embedding_column", intTree embeddingColumn) ::
    (ascii "text", .str text) :: if k > 0 then [(ascii "k", intTree k)] else []

lemma denotesObj_buildRetrieveTextBody (table : Bytes) (embeddingColumn : Int64) (text : Bytes)
    (k : Int64) : DenotesObj (buildRetrieveTextBody table embeddingColumn text k)
      (retrieveTextMembers table embeddingColumn text k) := by
  have hbody : buildRetrieveTextBody table embeddingColumn text k = objectText
      (member "table" (jsonEscape table) :: member "embedding_column" (int64Text embeddingColumn) ::
        member "text" (jsonEscape text) :: if k > 0 then [member "k" (int64Text k)] else []) := by
    simp only [buildRetrieveTextBody, objectText_member, laterText_member, laterText_ite,
      laterText_nil, List.cons_append, List.append_assoc, List.append_nil]
    rfl
  rw [hbody]
  apply denotesObj_objectText
  refine .cons (denotes_member _ (denotes_jsonEscape _)) (.cons (denotes_member _
    (denotes_int64Text _)) (.cons (denotes_member _ (denotes_jsonEscape _)) ?_))
  split
  · exact .cons (denotes_member _ (denotes_int64Text k)) .nil
  · exact .nil

end MongrelDB
