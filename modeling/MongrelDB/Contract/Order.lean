import MongrelDB.Contract.Clock
import MongrelDB.Json.Rearranged

/-!
# The order of the members of a status

A decoded status is read off look-ups by name, so it does not depend on the order in which the
members of the body, or of the objects in it, come, nor on the white space between them.
-/

namespace MongrelDB

open Text Traced Json

section Rearranged

variable {o o' : Obj} (h : o.Rearranged o') (hd : o.distinct = true) (plat : Platform)
include h hd

lemma intRead_rearranged (key : Bytes) : intRead plat o key = intRead plat o' key := by
  rw [intRead, map_eq_of_rel (h.rel_numAt hd key) fun _ _ hn => (NumLit.eq_of_render hn).2.2.2,
    intRead]

lemma uintRead_rearranged (key : Bytes) : uintRead o key = uintRead o' key := by
  have hnum := h.rel_numAt hd key
  rw [uintRead, uintRead, Obj.lookup_bind_asUnsigned, Obj.lookup_bind_asUnsigned]
  cases hn : o.numAt key <;> cases hn' : o'.numAt key <;> rw [hn, hn'] at hnum <;> cases hnum
  obtain ⟨hneg, htext, hint, -⟩ := NumLit.eq_of_render ‹_›
  simp only [Option.filter_some, hneg]
  split_ifs <;> simp only [uint64Answer, htext, hint]

lemma decodedHlc_rearranged : decodedHlc plat o = decodedHlc plat o' := by
  simp only [decodedHlc, h.isEmpty_eq hd, uintRead_rearranged h hd, intRead_rearranged h hd]

lemma hlcRead_rearranged : hlcRead plat o = hlcRead plat o' :=
  bind_eq_of_rel (h.rel_objAt hd _) fun _ _ hp => decodedHlc_rearranged hp.1 hp.2 plat

lemma decodedDurable_rearranged : decodedDurable plat o = decodedDurable plat o' := by
  simp only [decodedDurable, h.isEmpty_eq hd, h.strAt_eq hd, h.boolAt_eq hd,
    uintRead_rearranged h hd, intRead_rearranged h hd, hlcRead_rearranged h hd]

end Rearranged

lemma durableRead_rearranged (plat : Platform) {x x' : Option Obj}
    (hx : Option.Rel (fun p p' => p.Rearranged p' ∧ p.distinct = true) x x') :
    durableRead plat x = durableRead plat x' := by
  rw [durableRead, map_eq_of_rel hx fun _ _ hp => decodedDurable_rearranged hp.1 hp.2 plat,
    durableRead]

lemma decodedStatus_rearranged {o o' : Obj} (h : o.Rearranged o') (hd : o.distinct = true)
    (plat : Platform) (json : Bytes) : decodedStatus plat o json = decodedStatus plat o' json := by
  have houtcome := h.rel_objAt hd (ascii "outcome")
  have hdurable := rel_or (h.rel_objAt hd (ascii "durable")) houtcome
  simp only [decodedStatus, h.isEmpty_eq hd, h.strAt_eq hd, h.boolAt_eq hd,
    uintRead_rearranged h hd, intRead_rearranged h hd, hlcRead_rearranged h hd,
    durableRead_rearranged plat houtcome, durableRead_rearranged plat hdurable]

/-- The text that was decoded does not count. -/
def QueryStatus.apart (st : QueryStatus) : QueryStatus := { st with rawJson := [] }

lemma decodedStatus_apart (plat : Platform) (o : Obj) (json : Bytes) :
    (decodedStatus plat o json).apart = decodedStatus plat o [] := by
  unfold decodedStatus
  split_ifs <;> rfl

/-- A text whose members are moved, at any depth of objects, and whose white space is changed is
decoded to the same status. -/
theorem parseQueryStatusJson_rearranged (plat : Platform) (d d' : ObjDoc)
    (hd : d.obj.distinct = true) (h : d.obj.Rearranged d'.obj) :
    ∃ st st', (parseQueryStatusJson plat d.render).out = .ok st ∧
      (parseQueryStatusJson plat d'.render).out = .ok st' ∧ st.apart = st'.apart := by
  refine ⟨_, _, parseQueryStatusJson_object plat hd,
    parseQueryStatusJson_object plat (h.distinct hd), ?_⟩
  rw [decodedStatus_apart, decodedStatus_apart, decodedStatus_rearranged h hd]

/-- A status with a state and with a record of two members. -/
def orderedStatus : ObjDoc :=
  let durable := objectOf [(escapeLit (ascii "committed"), (Cst.bool true).toDoc),
    (escapeLit (ascii "statement_index"), (Cst.num (intLit 1)).toDoc)]
  objText (.members (membersOf
    (escapeLit (ascii "state"), (Cst.str (escapeLit (ascii "x"))).toDoc)
    [(escapeLit (ascii "durable"), durable.toDoc)]))

def blank : Ws := ⟨[0x20], List.all_eq_true.mp (by decide)⟩

def newline : Ws := ⟨[0x0A], List.all_eq_true.mp (by decide)⟩

/-- The same members the other way round, with some white space. -/
def reversedStatus : ObjDoc :=
  let durable := objectOf [
    (escapeLit (ascii "statement_index"), ⟨blank, .num (intLit 1), Ws.none⟩),
    (escapeLit (ascii "committed"), (Cst.bool true).toDoc)]
  ⟨Ws.none, .members (membersOf (escapeLit (ascii "durable"), durable.toDoc)
    [(escapeLit (ascii "state"), (Cst.str (escapeLit (ascii "x"))).toDoc)]), newline⟩

theorem parseQueryStatusJson_reversed : orderedStatus.render ≠ reversedStatus.render ∧
    ∃ st st', (parseQueryStatusJson (wildPlatform 0) orderedStatus.render).out = .ok st ∧
      (parseQueryStatusJson (wildPlatform 0) reversedStatus.render).out = .ok st' ∧
        st.apart = st'.apart := by
  refine ⟨by decide,
    parseQueryStatusJson_rearranged (wildPlatform 0) orderedStatus reversedStatus (by decide) ?_⟩
  let members : List (Bytes × Tree) :=
    [(ascii "committed", .bool true), (ascii "statement_index", .num (ascii "1"))]
  have hdurable : Tree.Rearranged (.obj members) (.obj members.reverse) := .perm (.swap _ _ _)
  have hmember := hdurable.member [(ascii "state", .str (ascii "x"))] [] (ascii "durable")
  exact hmember.trans (.perm (.swap _ _ _))

end MongrelDB
