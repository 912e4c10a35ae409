import BarScript.Proofs.Except
import BarScript.Proofs.Expr.Document

/-!
# Misfits in documents

Some errors of `Expr.load` are faults of the document as such, and a caller is told so
(`DocumentError.Reported`).  The others come from a value that does not fit the place where it
stands: a text that is no number, an operand that is no object, a list that is none.  They say
nothing about the document, and a caller who waits for a fault of the document does not see them.

`Misfit` says of a document what such a value is.  A node is read from its places, one after
another (`Place.ofType?`); the first place that cannot be read decides, so a document whose first
unreadable place holds a misfit, however deep, fails with the error of the misfit, and no other
document fails with an error that is not reported (`ofDocument_of_misfit`,
`misfit_of_ofDocument`).  Hence every text gives an expression within the limits, or an error that
is reported, or the error of its misfit (`load_outcome`).  The third happens
(`load_word_not_reported`).
-/

namespace BarScript

/-- The faults of a document as such. -/
def DocumentError.Reported : DocumentError → Prop
  | malformed | tooDeep | notObject | unknownType _ | excess _ => True
  | _ => False

/-- The value of the type of an object. -/
def Json.Members.type? (members : Json.Members CodePoints) : Option (Json CodePoints) :=
  members.get? (ofString "type")

/-! ### Places -/

/-- A member of an object that a node is read from and that may not fit. -/
inductive Place where
  | number (name : String)
  | whole (name : String)
  | operand (name : String)
  | operands (name : String)

namespace Place

/-- The places of a node, by its type, in the order in which they are read. -/
def ofType? : Option String → Option (List Place)
  | some "NUMBER" => some [number "value"]
  | some "STRING" => some []
  | some "IDENT" => some []
  | some "CALL" => some [operands "args"]
  | some "INDEX" => some [operand "child", whole "offset"]
  | some "UNARY" => some [operand "child"]
  | some "BINARY" => some [operand "left", operand "right"]
  | some "CMP" => some [operand "left", operand "right"]
  | some "LOGICAL" => some [operands "children"]
  | some "NOT" => some [operand "child"]
  | _ => none

/-- Whether a place can be read. -/
def check (members : Json.Members CodePoints) : Place → Except DocumentError Unit
  | number name => (fun _ => ()) <$> (members.amount name).toFloat
  | whole name => (fun _ => ()) <$> (members.amount name).toInt
  | operand name => (fun _ => ()) <$> Expr.ofDocument (members.operand name)
  | operands name =>
    (fun _ => ()) <$> (members.operands name >>= fun items => items.mapM Expr.ofDocument)

/-- A place of an object before which every place can be read. -/
def Reached (members : Json.Members CodePoints) (place : Place) : Prop :=
  ∃ before after, ofType? (members.type?.bind Json.text?) = some (before ++ place :: after) ∧
    ∀ p ∈ before, p.check members = .ok ()

end Place

/-- The first place of a document that cannot be read holds a value that does not fit, and the
error it gives. -/
inductive Misfit : Json CodePoints → DocumentError → Prop where
  | notNode {value : Json CodePoints} (h : ∀ members, value ≠ .object members) :
      Misfit value .notNode
  | number {members : Json.Members CodePoints} {name : String} {err : DocumentError}
      (h : Place.Reached members (.number name))
      (herr : (members.amount name).toFloat = .error err) : Misfit (.object members) err
  | whole {members : Json.Members CodePoints} {name : String} {err : DocumentError}
      (h : Place.Reached members (.whole name))
      (herr : (members.amount name).toInt = .error err) : Misfit (.object members) err
  | operand {members : Json.Members CodePoints} {name : String} {err : DocumentError}
      (h : Place.Reached members (.operand name)) (herr : Misfit (members.operand name) err) :
      Misfit (.object members) err
  | notList {members : Json.Members CodePoints} {name : String} {err : DocumentError}
      (h : Place.Reached members (.operands name)) (herr : members.operands name = .error err) :
      Misfit (.object members) err
  | item {members : Json.Members CodePoints} {name : String}
      {before after : List (Json CodePoints)} {value : Json CodePoints} {err : DocumentError}
      (h : Place.Reached members (.operands name))
      (hitems : members.operands name = .ok (before ++ value :: after))
      (hbefore : ∀ b ∈ before, ∃ e, Expr.ofDocument b = .ok e) (herr : Misfit value err) :
      Misfit (.object members) err

/-! ### What a value that does not fit gives -/

namespace Json

theorem not_reported_of_toFloat {value : Json CodePoints} {err : DocumentError}
    (h : value.toFloat = .error err) : ¬err.Reported := by
  unfold toFloat at h
  split at h
  · rename_i n
    cases hn : Number.ofInt? n <;> rw [hn] at h <;> cases h
    exact id
  · cases h
  · cases h
  · rename_i s
    cases hs : Numeral.float? (Text.plain s) <;> rw [hs] at h <;> cases h
    exact id
  · cases h
    exact id

theorem not_reported_of_toInt {value : Json CodePoints} {err : DocumentError}
    (h : value.toInt = .error err) : ¬err.Reported := by
  unfold toInt at h
  split at h
  · cases h
  · rename_i x
    cases hx : Number.truncate x <;> rw [hx] at h <;> cases h
    exact id
  · cases h
  · split at h <;> cases h <;> exact id
  · cases h
    exact id

theorem not_reported_of_operands {members : Members CodePoints} {name : String}
    {err : DocumentError} (h : members.operands name = .error err) : ¬err.Reported := by
  unfold Members.operands at h
  split at h
  · cases h
  · split at h
    · cases h
    · split at h <;> cases h <;> exact id

/-! ### Values inside an object are smaller -/

theorem sizeOf_lt_of_get? {members : Members CodePoints} {name : String} {value : Json CodePoints}
    (h : members.get? (ofString name) = some value) :
    sizeOf value < sizeOf (Json.object members) := by
  unfold Members.get? at h
  obtain ⟨⟨n, v⟩, hm, rfl⟩ := Option.map_eq_some_iff.1 h
  have hlt := List.sizeOf_lt_of_mem (List.mem_of_find?_eq_some hm)
  simp only [Prod.mk.sizeOf_spec, object.sizeOf_spec] at *
  omega

theorem Members.operand_eq (members : Members CodePoints) (name : String) :
    members.operand name = .object [] ∨
      members.get? (ofString name) = some (members.operand name) := by
  unfold operand
  split
  · exact .inl rfl
  · split
    · exact .inl rfl
    · exact .inr ‹_›

theorem sizeOf_lt_of_operands {members : Members CodePoints} {name : String}
    {items : List (Json CodePoints)} (h : members.operands name = .ok items)
    {value : Json CodePoints} (hvalue : value ∈ items) :
    sizeOf value < sizeOf (Json.object members) := by
  unfold Members.operands at h
  split at h
  · cases h
    cases hvalue
  · split at h
    · cases h
      cases hvalue
    · split at h
      · cases h
        have hitems := sizeOf_lt_of_get? ‹_›
        have hlt := List.sizeOf_lt_of_mem hvalue
        simp only [array.sizeOf_spec, object.sizeOf_spec] at *
        omega
      all_goals cases h

end Json

/-! ### Reading place by place -/

namespace Expr

/-- An object is read place by place. -/
theorem forget_ofDocument (members : Json.Members CodePoints) :
    (fun _ => ()) <$> ofDocument (.object members) =
      match Place.ofType? (members.type?.bind Json.text?) with
      | none => .error (Operand.typeError members.type?)
      | some places => (fun _ => ()) <$> places.mapM (Place.check members) := by
  have htype : (Operand.find? "type" (operandsOf members)).map (·.value) = members.type? := by
    simp [find?_operandsOf, Function.comp_def, Json.Members.type?]
  simp only [ofDocument, Operand.toExpr, htype]
  generalize members.type?.bind Json.text? = type
  unfold Place.ofType?
  -- one case for each type, in which both sides read the same places
  split
  all_goals simp only [valueOr_operandsOf, operand_operandsOf, operands_operandsOf, Place.check,
    List.mapM_cons, List.mapM_nil, map_bind, bind_map_left, map_pure, pure_bind, bind_assoc]
  rfl

/-- **Why an object gives no expression**: its type is unknown, or a place cannot be read. -/
theorem ofDocument_eq_error_iff {members : Json.Members CodePoints} {err : DocumentError} :
    ofDocument (.object members) = .error err ↔
      (Place.ofType? (members.type?.bind Json.text?) = none ∧
        err = Operand.typeError members.type?) ∨
      ∃ place, Place.Reached members place ∧ place.check members = .error err := by
  rw [← forget_eq_error_iff, forget_ofDocument]
  split
  · rename_i hnone
    simp [hnone, eq_comm, Place.Reached]
  · rename_i places hplaces
    rw [forget_eq_error_iff, mapM_eq_error_iff]
    simp only [hplaces, Place.Reached]
    constructor
    · rintro ⟨before, place, after, rfl, hbefore, h⟩
      refine .inr ⟨place, ⟨before, after, rfl, fun p hp => ?_⟩, h⟩
      obtain ⟨_, hc⟩ := hbefore p hp
      exact hc
    · rintro (⟨⟨⟩, -⟩ | ⟨place, ⟨before, after, ⟨rfl⟩, hbefore⟩, h⟩)
      exact ⟨before, place, after, rfl, fun p hp => ⟨(), hbefore p hp⟩, h⟩

theorem ofDocument_of_check {members : Json.Members CodePoints} {place : Place}
    {err : DocumentError}
    (hplace : Place.Reached members place) (h : place.check members = .error err) :
    ofDocument (.object members) = .error err :=
  ofDocument_eq_error_iff.2 (.inr ⟨place, hplace, h⟩)

/-! ### Misfits -/

/-- **A misfit decides how the reading fails**, and the error is not reported. -/
theorem ofDocument_of_misfit {value : Json CodePoints} {err : DocumentError}
    (h : Misfit value err) :
    ofDocument value = .error err ∧ ¬err.Reported := by
  induction h with
  | notNode h =>
    refine ⟨?_, id⟩
    unfold ofDocument
    split
    · exact absurd rfl (h _)
    · rfl
  | number h herr =>
    exact ⟨ofDocument_of_check h (forget_eq_error_iff.2 herr),
      Json.not_reported_of_toFloat herr⟩
  | whole h herr =>
    exact ⟨ofDocument_of_check h (forget_eq_error_iff.2 herr), Json.not_reported_of_toInt herr⟩
  | operand h _ ih => exact ⟨ofDocument_of_check h (forget_eq_error_iff.2 ih.1), ih.2⟩
  | notList h herr =>
    exact ⟨ofDocument_of_check h (forget_eq_error_iff.2 (bind_eq_error_iff.2 (.inl herr))),
      Json.not_reported_of_operands herr⟩
  | item h hitems hbefore _ ih =>
    refine ⟨ofDocument_of_check h (forget_eq_error_iff.2 (bind_eq_error_iff.2 (.inr ?_))), ih.2⟩
    exact ⟨_, hitems, mapM_eq_error_iff.2 ⟨_, _, _, rfl, hbefore, ih.1⟩⟩

/-- **An error that is not reported comes from a misfit.** -/
theorem misfit_of_ofDocument {value : Json CodePoints} {err : DocumentError}
    (h : ofDocument value = .error err) (herr : ¬err.Reported) : Misfit value err := by
  by_cases hobject : ∃ members, value = .object members
  · obtain ⟨members, rfl⟩ := hobject
    rcases ofDocument_eq_error_iff.1 h with ⟨-, rfl⟩ | ⟨place, hplace, h⟩
    · exact absurd trivial herr
    cases place with
    | number name => exact .number hplace (forget_eq_error_iff.1 h)
    | whole name => exact .whole hplace (forget_eq_error_iff.1 h)
    | operand name =>
      have hchild := forget_eq_error_iff.1 h
      rcases Json.Members.operand_eq members name with hempty | hget
      · -- the object without members has no type, which is reported
        rw [hempty] at hchild
        cases hchild
        exact absurd trivial herr
      · have := Json.sizeOf_lt_of_get? hget
        exact .operand hplace (misfit_of_ofDocument hchild herr)
    | operands name =>
      rcases bind_eq_error_iff.1 (forget_eq_error_iff.1 h) with h | ⟨items, hitems, h⟩
      · exact .notList hplace h
      · obtain ⟨before, item, after, rfl, hbefore, hitem⟩ := mapM_eq_error_iff.1 h
        have := Json.sizeOf_lt_of_operands hitems (List.mem_append_right before List.mem_cons_self)
        exact .item hplace hitems hbefore (misfit_of_ofDocument hitem herr)
  · unfold ofDocument at h
    split at h
    · exact absurd ⟨_, rfl⟩ hobject
    · cases h
      exact .notNode fun members hm => hobject ⟨members, hm⟩
termination_by sizeOf value

/-! ### Loading -/

/-- A text that holds a whole number with too many digits, or an object with a misfit. -/
def Unfit (text : CodePoints) (err : DocumentError) : Prop :=
  (∃ digits, Json.read text = .error (.intTooLong digits) ∧ err = .intTooLong digits) ∨
    ∃ members, Json.read text = .ok (.object members) ∧ Misfit (.object members) err

theorem load_of_unfit {text : CodePoints} {err : DocumentError} (h : Unfit text err) :
    load text = .error err ∧ ¬err.Reported := by
  rcases h with ⟨digits, hparse, rfl⟩ | ⟨members, hparse, h⟩
  · refine ⟨?_, id⟩
    rw [load, hparse]
    rfl
  · obtain ⟨hread, herr⟩ := ofDocument_of_misfit h
    refine ⟨?_, herr⟩
    simp only [load, hparse, hread, bind, Except.bind, pure, Except.pure]

theorem reported_or_unfit {text : CodePoints} {err : DocumentError} (h : load text = .error err) :
    err.Reported ∨ Unfit text err := by
  unfold load at h
  split at h
  · rename_i value hparse
    rw [pure_bind] at h
    dsimp only at h
    split at h
    · rcases bind_eq_error_iff.1 h with h | ⟨e, -, h⟩
      · by_cases herr : err.Reported
        · exact .inl herr
        · exact .inr (.inr ⟨_, hparse, misfit_of_ofDocument h herr⟩)
      · split at h <;> cases h
        exact .inl trivial
    · cases h
      exact .inl trivial
  · cases h
    exact .inl trivial
  · cases h
    exact .inl trivial
  · rename_i digits hparse
    cases h
    exact .inr (.inl ⟨digits, hparse, rfl⟩)

/-- **What loading a text gives**: an expression within the limits, or an error that is reported, or
the error of a misfit in the text; and a text with a misfit always fails with its error, which is
not reported. -/
theorem load_outcome (text : CodePoints) :
    ((∃ e, load text = .ok e ∧ e.shape.Within) ∨
      ∃ err, load text = .error err ∧ (err.Reported ∨ Unfit text err)) ∧
    ∀ err, Unfit text err → load text = .error err ∧ ¬err.Reported := by
  refine ⟨?_, fun err => load_of_unfit⟩
  cases h : load text with
  | ok e => exact .inl ⟨e, rfl, within_of_load h⟩
  | error err => exact .inr ⟨err, rfl, reported_or_unfit h⟩

/-- **A word in the place of a number is not reported.** -/
theorem load_word_not_reported :
    let text : CodePoints := ofString "\x7b\"type\": \"NUMBER\", \"value\": \"abc\"\x7d"
    load text = .error (.notNumber (ofString "abc")) ∧
      ¬((∃ e, load text = .ok e ∧ e.shape.Within) ∨
        ∃ err, load text = .error err ∧ err.Reported) := by
  intro text
  have h : load text = .error (.notNumber (ofString "abc")) := by
    have herror : (match load text with
        | .ok _ => false
        | .error err => decide (err = .notNumber (ofString "abc"))) = true := by decide +kernel
    split at herror
    · cases herror
    · rename_i err hload
      rw [hload, of_decide_eq_true herror]
  refine ⟨h, ?_⟩
  rintro (⟨e, he, -⟩ | ⟨err, he, herr⟩)
  · rw [h] at he
    cases he
  · rw [h] at he
    cases he
    exact herr

end Expr

end BarScript
