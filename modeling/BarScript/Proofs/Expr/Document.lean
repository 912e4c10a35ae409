import BarScript.Expr.Document
import BarScript.Proofs.Except
import BarScript.Proofs.Expr.Joined
import BarScript.Proofs.Expr.Place
import BarScript.Proofs.Json.Parse

/-!
# Documents read back

The document of an expression describes the expression (`ofDocument_document`), and its text can be
read as long as the expression is within the limits and its numbers can be written
(`readable_document`).  So the text of an expression's document gives the expression again, up to
pairs of surrogates in its texts: two escapes stand there for the pair, and for the character that
it encodes (`load_dump`).  An expression whose texts are strings has none and is given back as it is
(`load_dump_points`), and a pair is not given back (`load_dump_pair_ne`).
-/

namespace BarScript

open Number

/-! ### From the document to the expression -/

namespace Expr

theorem exists_document (e : Expr CodePoints) :
    ∃ m ms, e.document = .object (m :: ms) := by
  obtain ⟨n⟩ := e
  exact ⟨_, _, document_mk n⟩

/-- The member that holds the document of an operand is read as the operand. -/
theorem operand_of_document {name : String} {members : Json.Members CodePoints}
    {c : Expr CodePoints} (hget : members.get? (ofString name) = some c.document)
    (hc : ofDocument c.document = .ok c) :
    Operand.operand name (operandsOf members) = .ok c := by
  obtain ⟨m, ms, hdoc⟩ := exists_document c
  have hmember : members.operand name = c.document := by
    simp only [Json.Members.operand, hget, hdoc]
    rfl
  rw [operand_operandsOf, hmember, hc]

theorem mapM_ofDocument {cs : List (Expr CodePoints)}
    (hcs : ∀ c ∈ cs, ofDocument c.document = .ok c) :
    (cs.map document).mapM ofDocument = .ok cs := by
  induction cs with
  | nil => rfl
  | cons c cs ih =>
    obtain ⟨hc, hcs⟩ := List.forall_mem_cons.1 hcs
    rw [List.map_cons, List.mapM_cons, hc, ih hcs]
    rfl

/-- The member that holds the documents of operands is read as the operands. -/
theorem operands_of_document {name : String} {members : Json.Members CodePoints}
    {cs : List (Expr CodePoints)}
    (hget : members.get? (ofString name) = some (.array (cs.map document)))
    (hcs : ∀ c ∈ cs, ofDocument c.document = .ok c) :
    Operand.operands name (operandsOf members) = .ok cs := by
  have hmember : members.operands name = .ok (cs.map document) := by
    simp only [Json.Members.operands, hget]
    cases cs <;> rfl
  rw [operands_operandsOf, hmember]
  exact mapM_ofDocument hcs

/-- **The document of a node describes the node**, if the documents of its operands do. -/
theorem ofDocument_node {n : Node (Expr CodePoints) CodePoints}
    (h : ∀ c ∈ n.children, ofDocument c.document = .ok c) :
    ofDocument (mk n).document = .ok (mk n) := by
  rw [document_mk]
  cases n <;> simp only [Node.map, Node.document, Node.tag, Node.documentMembers]
  case number | text | name => rfl
  case call function arguments =>
    change (Operand.operands "args" (operandsOf _) >>= fun cs =>
      Except.ok (mk (.call function cs))) = _
    rw [operands_of_document rfl h]
    rfl
  case history operand bars =>
    change (Operand.operand "child" (operandsOf _) >>= fun c =>
      Except.ok (mk (.history c bars))) = _
    rw [operand_of_document rfl (h operand (by simp [Node.children]))]
    rfl
  case unary operator operand =>
    change (Operand.operand "child" (operandsOf _) >>= fun c =>
      Except.ok (mk (.unary operator c))) = _
    rw [operand_of_document rfl (h operand (by simp [Node.children]))]
    rfl
  case binary operator left right =>
    change (Operand.operand "left" (operandsOf _) >>= fun l =>
      Operand.operand "right" (operandsOf _) >>= fun r =>
        Except.ok (mk (.binary operator l r))) = _
    rw [operand_of_document rfl (h left (by simp [Node.children])),
      operand_of_document rfl (h right (by simp [Node.children]))]
    rfl
  case comparison operator left right =>
    change (Operand.operand "left" (operandsOf _) >>= fun l =>
      Operand.operand "right" (operandsOf _) >>= fun r =>
        Except.ok (mk (.comparison operator l r))) = _
    rw [operand_of_document rfl (h left (by simp [Node.children])),
      operand_of_document rfl (h right (by simp [Node.children]))]
    rfl
  case logical operator operands =>
    change (Operand.operands "children" (operandsOf _) >>= fun cs =>
      Except.ok (mk (.logical operator cs))) = _
    rw [operands_of_document rfl h]
    rfl
  case negation operand =>
    change (Operand.operand "child" (operandsOf _) >>= fun c => Except.ok (mk (.negation c))) = _
    rw [operand_of_document rfl (h operand (by simp [Node.children]))]
    rfl

/-- **The document of an expression describes the expression.** -/
theorem ofDocument_document (e : Expr CodePoints) : ofDocument e.document = .ok e := by
  induction e using node_induction with
  | h n ih => exact ofDocument_node ih

end Expr

/-! ### From the text to the document -/

/-- A node whose number of bars is not too long to be written, and whose number is not NaN. -/
def Node.Writable {τ : Type} : Node Unit τ → Prop
  | .number value => value.isNaN = false
  | .history _ bars => (digitChars bars.natAbs).length ≤ Numeral.maxIntDigits
  | _ => True

theorem Node.writable_mapTexts {τ σ : Type} {f : τ → σ} {n : Node Unit τ} :
    (n.mapTexts f).Writable ↔ n.Writable := by
  cases n <;> rfl

namespace Expr

/-- The members of a node's document have different names. -/
theorem nodup_documentMembers (n : Node (Json CodePoints) CodePoints) :
    (((ofString "type", Json.string (ofString n.tag)) :: n.documentMembers).map (·.1)).Nodup := by
  have hne : ∀ {s t : String}, s ≠ t → (ofString s : CodePoints) ≠ ofString t :=
    fun h heq => h (Text.points_inj heq)
  cases n <;> simp [Node.documentMembers, hne]

theorem readable_documentMembers {n : Node (Json CodePoints) CodePoints} {room : Nat}
    (hn : n.bare.Writable) (h : ∀ c ∈ n.children, Json.Readable room c) :
    ∀ m ∈ n.documentMembers, Json.Readable (room + 1) m.2 := by
  have hchild : ∀ c ∈ n.children, Json.Readable (room + 1) c :=
    fun c hc => (h c hc).mono (Nat.le_succ room)
  cases n with
  | number value => simpa [Node.documentMembers] using .real _ hn
  | text value => simpa [Node.documentMembers] using .string _ value
  | name symbol => simpa [Node.documentMembers] using .string _ symbol
  | call function arguments =>
    simpa [Node.documentMembers] using ⟨.string _ function, .array h⟩
  | history operand bars =>
    simpa [Node.documentMembers] using ⟨.int _ hn, hchild operand (by simp [Node.children])⟩
  | unary operator operand =>
    simpa [Node.documentMembers] using
      ⟨.string _ operator, hchild operand (by simp [Node.children])⟩
  | binary operator left right | comparison operator left right =>
    simpa [Node.documentMembers] using ⟨.string _ operator, hchild left (by simp [Node.children]),
      hchild right (by simp [Node.children])⟩
  | logical operator operands =>
    simpa [Node.documentMembers] using ⟨.string _ operator, .array h⟩
  | negation operand => simpa [Node.documentMembers] using hchild operand (by simp [Node.children])

/-- The text of a document can be read: it nests two levels for each level of the expression. -/
theorem readable_document {e : Expr CodePoints} (h : e.Every Node.Writable) :
    Json.Readable (2 * e.shape.depth) e.document := by
  induction e using node_induction with
  | h n ih =>
    rw [every_mk] at h
    obtain ⟨d, hd⟩ : ∃ d, (mk n).shape.depth = d + 1 :=
      ⟨_, by rw [shape_mk, Shape.ofNode, Nat.add_comm]⟩
    have hchildren : ∀ c ∈ (n.map document).children, Json.Readable (2 * d) c := by
      rw [Node.children_map]
      intro c' hc'
      obtain ⟨c, hc, rfl⟩ := List.mem_map.1 hc'
      have := depth_lt hc
      exact (ih c hc (h.2 c hc)).mono (by omega)
    have hmembers := readable_documentMembers (by rw [Node.bare_map]; exact h.1) hchildren
    rw [hd, document_mk, Nat.mul_succ]
    refine .object (nodup_documentMembers _) (List.forall_mem_cons.2 ⟨.string _ _, hmembers⟩)

theorem within_of_load {text : CodePoints} {e : Expr CodePoints} (h : load text = .ok e) :
    e.shape.Within := by
  rw [load] at h
  split at h
  · obtain ⟨value, -, h⟩ := bind_eq_ok_iff.1 h
    simp only at h
    split at h
    · obtain ⟨e', -, h⟩ := bind_eq_ok_iff.1 h
      split at h
      · rename_i hexcess
        cases h
        exact Shape.excess?_eq_none_iff.1 hexcess
      · cases h
    · cases h
  · cases h
  · cases h
  · cases h

theorem load_dump_of_within {e : Expr CodePoints} (hs : e.shape.Within)
    (hw : e.Every Node.Writable) : load (Text.points e.dump) = .ok e.joined := by
  have hjoin : ∀ s : String, Text.join (ofString s) = ofString s :=
    fun s => Text.join_chars s.toList
  have hdocument : e.document.mapTexts Text.join = e.joined.document :=
    (document_mapTexts hjoin e).symm
  have hs' : e.joined.shape.Within := by rwa [joined, shape_mapTexts]
  have hw' : e.joined.Every Node.Writable := by
    simpa only [joined, every_mapTexts, Node.writable_mapTexts] using hw
  have hread : Json.Readable Json.Reader.maxNesting e.joined.document := by
    refine (readable_document hw').mono ?_
    have h : e.joined.shape.depth ≤ 100 := hs'.1
    rw [Json.Reader.maxNesting]
    omega
  have hparse : Json.read (Text.points e.dump) = .ok e.joined.document := by
    rw [← hdocument] at hread ⊢
    exact Json.read_renderPoints hread
  obtain ⟨m, ms, hdoc⟩ := exists_document e.joined
  have hof := ofDocument_document e.joined
  have hexcess := Shape.excess?_eq_none_iff.2 hs'
  rw [hdoc] at hparse hof
  simp only [load, hparse, hof, hexcess, bind, Except.bind, pure, Except.pure]

/-- **The text of an expression's document gives the expression**, with the pairs of surrogates in
its texts put together, if no number of it is NaN and no number of bars is too long to be written:
an expression within the limits, and so every expression that was loaded, whatever its document left
out or wrote in another way.  It gives the expression as it is if and only if no text has a pair. -/
theorem load_dump {e : Expr CodePoints} (hw : e.Every Node.Writable) :
    (e.shape.Within → load (Text.points e.dump) = .ok e.joined) ∧
      (∀ text, load text = .ok e → load (Text.points e.dump) = .ok e.joined) ∧
      (e.joined = e ↔ e.Every Node.Unpaired) :=
  ⟨fun hs => load_dump_of_within hs hw, fun _ h => load_dump_of_within (within_of_load h) hw,
    joined_eq_self_iff⟩

/-- Negative zero, infinity, a quote, a control character, a character beyond U+FFFF, a number of
bars that is negative, and two surrogates in the wrong order behind which a pair stands. -/
theorem load_dump_escapes :
    let e : List CodePoint → Expr CodePoints := fun s =>
      .mk (.history (.mk (.call (ofString "a\"b") [.mk (.number (-0.0)),
        .mk (.binary (ofString "\x07") (.mk (.text s)) (.mk (.number (1.0 / 0.0))))])) (-3))
    let low : CodePoint := .surrogate 0x600
    let high : CodePoint := .surrogate 0x3D
    (e [low, high, high, low]).Every Node.Writable ∧ (e [low, high, high, low]).shape.Within ∧
      load (Text.points (e [low, high, high, low]).dump) = .ok (e [low, high, .char '😀']) := by
  intro e low high
  have hs : (e [low, high, high, low]).shape.Within := by decide
  have hw : (e [low, high, high, low]).Every Node.Writable := by
    simp only [e, every_mk, Node.children, List.forall_mem_cons, List.not_mem_nil, false_imp_iff,
      implies_true, and_true, true_and, Node.bare, Node.map, Node.Writable]
    exact ⟨by decide, rfl, rfl⟩
  exact ⟨hw, hs, (load_dump hw).1 hs⟩

/-- An expression whose texts are strings is given back as it is. -/
theorem load_dump_points {e : Expr} (hs : e.shape.Within) (hw : e.Every Node.Writable) :
    load (Text.points e.points.dump) = .ok e.points := by
  have hs' : e.points.shape.Within := by rwa [points, shape_mapTexts]
  have hw' : e.points.Every Node.Writable := by
    simpa only [points, every_mapTexts, Node.writable_mapTexts] using hw
  rw [load_dump_of_within hs' hw', joined_points]

/-- The text in quotes that an expression is, if it is one. -/
def quoted? {τ : Type} : Expr τ → Option τ
  | .mk (.text s) => some s
  | _ => none

theorem eq_of_quoted? {τ : Type} {e : Expr τ} {s : τ} (h : e.quoted? = some s) :
    e = .mk (.text s) := by
  obtain ⟨n⟩ := e
  cases n <;> cases h
  rfl

/-- **A pair of surrogates is not given back**: a text in which the first stands for itself and the
second is an escape gives the two, and the text that is then written gives the character that they
encode. -/
theorem load_dump_pair_ne :
    let pair : CodePoints := [.surrogate 0x3D, .surrogate 0x600]
    let text : CodePoints := ofString "\x7b\"type\": \"STRING\", \"value\": \"" ++
      .surrogate 0x3D :: ofString "\\ude00\"\x7d"
    let e : Expr CodePoints := .mk (.text pair)
    e.Every Node.Writable ∧ e.shape.Within ∧ load text = .ok e ∧
      load (Text.points e.dump) = .ok (.mk (.text [.char '😀'])) ∧
      load (Text.points e.dump) ≠ .ok e := by
  intro pair text e
  have hs : e.shape.Within := by decide
  have hw : e.Every Node.Writable := every_mk.2 ⟨trivial, nofun⟩
  have hload : load text = .ok e := by
    have hquoted : (load text).toOption.bind quoted? = some pair := by decide +kernel
    cases h : load text with
    | error err => rw [h] at hquoted; cases hquoted
    | ok e' =>
      rw [h] at hquoted
      rw [eq_of_quoted? hquoted]
  have hdump : load (Text.points e.dump) = .ok (.mk (.text [.char '😀'])) :=
    load_dump_of_within hs hw
  refine ⟨hw, hs, hload, hdump, ?_⟩
  rw [hdump]
  intro h
  have hchar : [CodePoint.char '😀'] = pair := Node.text.inj (mk.inj (Except.ok.inj h))
  exact absurd hchar (by decide)

end Expr

end BarScript
