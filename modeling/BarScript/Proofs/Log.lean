import BarScript.Log
import BarScript.Proofs.Json.Line
import BarScript.Proofs.Json.Parse

/-!
# Log lines

A record is written on one line, and reading the line gives back what the record says
(`LogRecord.line_reads`), whatever texts and values are in it.

What a record says under a name (`LogRecord.value?`) is decided by three layers: the failure comes
before the details, and the details come before the level, the logger and the message.  The members
of a record are the result of setting them one after the other, so the layers are those of the last
setting of a name (`Json.Members.get?_putAll`).
-/

namespace BarScript

/-! ### Setting members -/

namespace Json

variable {room : Nat} {members settings : Members} {name : String} {value : Json}

/-- A member that is set is the only one to change. -/
theorem Members.get?_put (members : Members) (name : String) (value : Json) (n : String) :
    (members.put name value).get? n = if name = n then some value else members.get? n := by
  induction members with
  | nil => by_cases hn : name = n <;> simp [Members.put, Members.get?, hn]
  | cons m rest ih =>
    unfold Members.get? at ih ⊢
    rw [Members.put]
    by_cases hm : m.1 = name
    · by_cases hn : name = n <;> simp [hm, hn]
    · rw [if_neg (by simpa using hm)]
      by_cases hn : m.1 = n
      · have hne : name ≠ n := fun h => hm (hn.trans h.symm)
        simp [hn, hne]
      · rwa [List.find?_cons_of_neg (by simpa using hn), List.find?_cons_of_neg (by simpa using hn)]

/-- After several settings, the last one of a name counts. -/
theorem Members.get?_putAll (members settings : Members) (n : String) :
    (settings.foldl (fun ms m => Members.put ms m.1 m.2) members).get? n =
      (Members.get? n settings.reverse).or (members.get? n) := by
  induction settings generalizing members with
  | nil => rfl
  | cons m rest ih =>
    rw [List.foldl_cons, ih, Members.get?_put, List.reverse_cons]
    unfold Members.get?
    rw [List.find?_append, Option.map_or, Option.or_assoc]
    by_cases hn : m.1 = n <;> simp [hn]

theorem Members.mem_put {m : String × Json} (h : m ∈ members.put name value) :
    m = (name, value) ∨ m ∈ members := by
  induction members with
  | nil => exact .inl (by simpa [Members.put] using h)
  | cons first rest ih =>
    rw [Members.put] at h
    split at h
    · exact (List.mem_cons.1 h).imp_right (List.mem_cons_of_mem first)
    · rcases List.mem_cons.1 h with rfl | h
      · exact .inr List.mem_cons_self
      · exact (ih h).imp_right (List.mem_cons_of_mem first)

theorem Members.nodup_put (name : String) (value : Json) (h : (members.map (·.1)).Nodup) :
    ((members.put name value).map (·.1)).Nodup := by
  induction members with
  | nil => simp [Members.put]
  | cons first rest ih =>
    rw [List.map_cons, List.nodup_cons] at h
    rw [Members.put]
    split
    next heq => rwa [List.map_cons, ← (beq_iff_eq.1 heq), List.nodup_cons]
    next hne =>
      rw [List.map_cons, List.nodup_cons]
      refine ⟨fun hmem => ?_, ih h.2⟩
      obtain ⟨m, hm, hname⟩ := List.mem_map.1 hmem
      rcases Members.mem_put hm with rfl | hm
      · exact hne (beq_iff_eq.2 hname.symm)
      · exact h.1 (hname ▸ List.mem_map_of_mem hm)

/-- An object is read after one more member is set, if the new value is. -/
theorem Readable.put (h : Readable (room + 1) (.object members)) (hvalue : Readable room value) :
    Readable (room + 1) (.object (members.put name value)) := by
  cases h with
  | object hnames hmembers =>
    refine .object (Members.nodup_put name value hnames) fun m hm => ?_
    rcases Members.mem_put hm with rfl | hm
    · exact hvalue
    · exact hmembers m hm

theorem Readable.putAll (h : Readable (room + 1) (.object members))
    (hsettings : ∀ m ∈ settings, Readable room m.2) :
    Readable (room + 1)
      (.object (settings.foldl (fun ms m => Members.put ms m.1 m.2) members)) := by
  induction settings generalizing members with
  | nil => exact h
  | cons m rest ih =>
    obtain ⟨hm, hrest⟩ := List.forall_mem_cons.1 hsettings
    exact ih (h.put hm) hrest

/-- Some room is enough for all of several values. -/
theorem exists_room (h : ∀ m ∈ members, ∃ room, Readable room m.2) :
    ∃ room, ∀ m ∈ members, Readable room m.2 := by
  induction members with
  | nil => exact ⟨0, by simp⟩
  | cons m rest ih =>
    obtain ⟨⟨room, hm⟩, hrest⟩ := List.forall_mem_cons.1 h
    obtain ⟨room', hroom'⟩ := ih hrest
    exact ⟨max room room', List.forall_mem_cons.2 ⟨hm.mono (le_max_left _ _),
      fun m h => (hroom' m h).mono (le_max_right _ _)⟩⟩

end Json

/-! ### Records -/

namespace LogRecord

variable {r : LogRecord}

/-- What the failure of a record says under a name. -/
def failureValue? (r : LogRecord) (name : String) : Option Json :=
  if name = "exc_info" then r.failure.map fun f => .string f.text else none

/-- What the details of a record say under a name: the last one of that name counts. -/
def detail? (r : LogRecord) (name : String) : Option Json :=
  Json.Members.get? name r.details.reverse

/-- What every record says under a name. -/
def baseValue? (r : LogRecord) (name : String) : Option Json :=
  if name = "level" then some (.string r.level)
  else if name = "logger" then some (.string r.logger)
  else if name = "message" then some (.string r.message)
  else none

/-- **What a record says under a name.** -/
def value? (r : LogRecord) (name : String) : Option Json :=
  (r.failureValue? name).or ((r.detail? name).or (r.baseValue? name))

/-- The members that every record has. -/
def base (r : LogRecord) : Json.Members :=
  [("level", .string r.level), ("logger", .string r.logger),
    ("message", .string r.message)]

theorem get?_base (r : LogRecord) (name : String) : r.base.get? name = r.baseValue? name := by
  unfold base Json.Members.get? baseValue?
  simp only [List.find?_cons, List.find?_nil, beq_eq_decide, eq_comm (b := name)]
  by_cases hlevel : name = "level"
  · simp [hlevel]
  by_cases hlogger : name = "logger"
  · simp [hlogger]
  by_cases hmessage : name = "message" <;> simp [hlevel, hlogger, hmessage]

theorem readable_base (r : LogRecord) (room : Nat) :
    Json.Readable (room + 1) (.object r.base) := by
  refine .object (by simp [base]) ?_
  simp only [base, List.forall_mem_cons]
  exact ⟨.string _ _, .string _ _, .string _ _, by simp⟩

/-- The details are set after the members that every record has, and the failure after them. -/
theorem members_eq (r : LogRecord) : r.members =
    match r.failure with
    | none => r.details.foldl (fun ms m => ms.put m.1 m.2) r.base
    | some f =>
      (r.details.foldl (fun ms m => ms.put m.1 m.2) r.base).put "exc_info" (.string f.text) :=
  rfl

/-- The members of a record are what it says. -/
theorem get?_members (r : LogRecord) (name : String) : r.members.get? name = r.value? name := by
  rw [members_eq, value?, failureValue?, detail?, ← get?_base]
  cases r.failure with
  | none => simp [Json.Members.get?_putAll]
  | some f =>
    by_cases hname : name = "exc_info" <;>
      simp [Json.Members.get?_put, Json.Members.get?_putAll, hname, eq_comm (b := name)]

/-- A record is read if its details are. -/
theorem readable_document {room : Nat} (h : ∀ m ∈ r.details, Json.Readable room m.2) :
    Json.Readable (room + 1) r.document := by
  have hdetails := (r.readable_base room).putAll h
  rw [document, members_eq]
  cases r.failure with
  | none => exact hdetails
  | some f => exact hdetails.put (.string _ _)

/-- **A record is one line, and the line says what the record says**: there is no control character
in it, and it is read as an object without repeated names that has exactly the members that the
record says.  Any details may be in the record whose values can be read at some depth; the reader
needs one level more than they do. -/
theorem line_reads (r : LogRecord) (h : ∀ m ∈ r.details, ∃ room, Json.Readable room m.2) :
    Json.OnOneLine r.line.toList ∧
      ∃ members : Json.Members, (members.map (·.1)).Nodup ∧
        (∀ name, members.get? name = r.value? name) ∧
        (∃ depth, ∀ room, depth ≤ room →
          Json.parseWithin room r.line = .ok (.object members)) ∧
        ((∀ m ∈ r.details, Json.Readable (Json.Reader.maxNesting - 1) m.2) →
          Json.parse r.line = .ok (.object members)) := by
  have hline : Json.OnOneLine r.line.toList := by
    rw [line, Json.render, String.toList_ofList]
    exact Json.onOneLine_chars .unicode r.document
  obtain ⟨depth, hdepth⟩ := Json.exists_room h
  have hreadable := readable_document hdepth
  have hnames : (r.members.map (·.1)).Nodup := by
    cases hreadable with
    | object hnames _ => exact hnames
  exact ⟨hline, r.members, hnames, r.get?_members,
    ⟨depth + 1, fun room hroom => Json.parseWithin_render .unicode (hreadable.mono hroom)⟩,
    fun hshallow => Json.parse_render .unicode (readable_document hshallow)⟩

/-- A warning whose details are named like its message and its failure. -/
def overriding : LogRecord :=
  { logger := "signals", level := warning, message := "rule failed",
    details := [("exc_info", .null), ("message", .string "\x7d\n\x7b\"level\": 0"),
      ("symbol", .string "沪深"), ("rules", .array [.int (-3), .object [("", .bool true)]])],
    failure := some { kind := "ScriptError", message := "line 1\nline 2" } }

/-- Its line is one line: the details replace the message, and the failure the detail. -/
theorem line_reads_overriding :
    Json.OnOneLine overriding.line.toList ∧
      ∃ members : Json.Members, Json.parse overriding.line = .ok (.object members) ∧
        members.get? "level" = some (.string "WARNING") ∧
        members.get? "message" = some (.string "\x7d\n\x7b\"level\": 0") ∧
        members.get? "exc_info" = some (.string "ScriptError: line 1\nline 2") ∧
        members.get? "args" = none := by
  have hreadable : ∀ m ∈ overriding.details, Json.Readable 2 m.2 := by
    have hrule : Json.Readable 1 (.object [("", .bool true)]) :=
      .object (by simp) (by simpa using Json.Readable.bool 0 true)
    have hrules : Json.Readable 2 (.array [.int (-3), .object [("", .bool true)]]) :=
      .array (by simpa using ⟨.int _ (by decide), hrule⟩)
    simpa [overriding] using ⟨.null _, .string _ _, .string _ _, hrules⟩
  obtain ⟨hline, members, -, hvalue, -, hparse⟩ :=
    line_reads overriding fun m hm => ⟨2, hreadable m hm⟩
  exact ⟨hline, members, hparse fun m hm => (hreadable m hm).mono (by decide),
    (hvalue "level").trans rfl, (hvalue "message").trans rfl, (hvalue "exc_info").trans rfl,
    (hvalue "args").trans rfl⟩

end LogRecord

end BarScript
