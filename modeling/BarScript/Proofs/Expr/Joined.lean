import BarScript.Expr.Document
import BarScript.Proofs.Expr.Every
import BarScript.Proofs.Text.CodePoint

/-!
# The texts in an expression

A function on texts can be applied to every text in an expression: the operators, the names and the
texts proper (`Node.texts`).  Neither the shape nor what is no text is changed by this, and the
document of the result is the document with the function applied to every text, if the function
leaves the words of documents as they are (`Expr.document_mapTexts`).

`Expr.joined` puts pairs of surrogates together in every text.  It leaves an expression as it is if
and only if no text has such a pair (`Expr.joined_eq_self_iff`).
-/

namespace BarScript

variable {β γ τ σ : Type}

namespace Node

/-- The texts of a node, not counting those of its operands. -/
def texts : Node β τ → List τ
  | .number _ => []
  | .text value => [value]
  | .name symbol => [symbol]
  | .call function _ => [function]
  | .history _ _ => []
  | .unary operator _ => [operator]
  | .binary operator _ _ => [operator]
  | .comparison operator _ _ => [operator]
  | .logical operator _ => [operator]
  | .negation _ => []

/-- No text of a node has a high surrogate with a low one right behind it. -/
def Unpaired (n : Node Unit CodePoints) : Prop := ∀ s ∈ n.texts, Text.Unpaired s

@[simp] theorem bare_mapTexts (f : τ → σ) (n : Node β τ) :
    (n.mapTexts f).bare = n.bare.mapTexts f := by
  rw [bare, bare, mapTexts_map]

theorem map_eq_self_iff {g : β → β} {as : List β} : as.map g = as ↔ ∀ a ∈ as, g a = a := by
  have h : as.map g = as.map id ↔ ∀ a ∈ as, g a = id a := List.map_inj_left
  rwa [List.map_id] at h

/-- Functions on the operands and on the texts leave a node as it is if they leave all of them as
they are. -/
theorem map_mapTexts_eq_self_iff {f : τ → τ} {g : β → β} {n : Node β τ} :
    (n.map g).mapTexts f = n ↔
      (∀ s ∈ n.bare.texts, f s = s) ∧ ∀ c ∈ n.children, g c = c := by
  cases n <;> simp [map, mapTexts, bare, texts, children, map_eq_self_iff]

/-- The document of a node with other texts. -/
theorem document_mapTexts [OfString τ] [OfString σ] {f : τ → σ}
    (hf : ∀ s : String, f (ofString s) = ofString s) (n : Node (Json τ) τ) :
    ((n.map (Json.mapTexts f)).mapTexts f).document = n.document.mapTexts f := by
  cases n <;> simp [document, documentMembers, map, mapTexts, Json.mapTexts, hf, tag]

end Node

namespace Expr

theorem mapTexts_mapTexts {υ : Type} (f : σ → υ) (g : τ → σ) (e : Expr τ) :
    (e.mapTexts g).mapTexts f = e.mapTexts fun s => f (g s) := by
  induction e using node_induction with
  | h n ih =>
    rw [mapTexts_mk, mapTexts_mk, mapTexts_mk, ← Node.mapTexts_map, Node.map_map,
      Node.map_congr ih]
    cases n <;> rfl

theorem mapTexts_eq_self_iff {f : τ → τ} {e : Expr τ} :
    e.mapTexts f = e ↔ e.Every fun n => ∀ s ∈ n.texts, f s = s := by
  induction e using node_induction with
  | h n ih =>
    rw [mapTexts_mk, mk.injEq, Node.map_mapTexts_eq_self_iff, every_mk]
    exact and_congr_right fun _ => forall₂_congr ih

theorem mapTexts_eq_self {f : τ → τ} (hf : ∀ s, f s = s) (e : Expr τ) : e.mapTexts f = e := by
  induction e using node_induction with
  | h n ih =>
    rw [mapTexts_mk, mk.injEq, Node.map_mapTexts_eq_self_iff]
    exact ⟨fun s _ => hf s, ih⟩

@[simp] theorem shape_mapTexts (f : τ → σ) (e : Expr τ) : (e.mapTexts f).shape = e.shape := by
  induction e using node_induction with
  | h n ih =>
    rw [mapTexts_mk, shape_mk, shape_mk, ← Node.mapTexts_map, Node.map_map, Node.map_congr ih]
    cases n <;> rfl

theorem every_mapTexts {f : τ → σ} {p : Node Unit σ → Prop} {e : Expr τ} :
    (e.mapTexts f).Every p ↔ e.Every fun n => p (n.mapTexts f) := by
  induction e using node_induction with
  | h n ih =>
    rw [mapTexts_mk, every_mk, every_mk, Node.bare_mapTexts, Node.bare_map, Node.children_mapTexts,
      Node.children_map, List.forall_mem_map]
    exact and_congr_right fun _ => forall₂_congr ih

theorem document_mk [OfString τ] (n : Node (Expr τ) τ) :
    (mk n).document = Node.document (n.map document) := fold_mk _ n

/-- **The document of an expression with other texts** is its document with other texts. -/
theorem document_mapTexts [OfString τ] [OfString σ] {f : τ → σ}
    (hf : ∀ s : String, f (ofString s) = ofString s) (e : Expr τ) :
    (e.mapTexts f).document = e.document.mapTexts f := by
  induction e using node_induction with
  | h n ih =>
    have hchildren : (n.map (mapTexts f)).map document =
        (n.map document).map (Json.mapTexts f) := by
      rw [Node.map_map, Node.map_map]
      exact Node.map_congr ih
    rw [mapTexts_mk, document_mk, document_mk, ← Node.mapTexts_map, hchildren,
      Node.document_mapTexts hf]

/-- The expression with the pairs of surrogates in every text put together. -/
def joined (e : Expr CodePoints) : Expr CodePoints := e.mapTexts Text.join

theorem joined_points (e : Expr) : e.points.joined = e.points := by
  rw [joined, points, mapTexts_mapTexts]
  exact congrArg (mapTexts · e) (funext fun s => Text.join_chars s.toList)

theorem plain_points (e : Expr) : e.points.plain = e := by
  rw [plain, points, mapTexts_mapTexts]
  exact mapTexts_eq_self Text.plain_points e

/-- **Joining leaves an expression as it is if and only if there are no pairs in its texts.** -/
theorem joined_eq_self_iff {e : Expr CodePoints} : e.joined = e ↔ e.Every Node.Unpaired := by
  simp only [joined, mapTexts_eq_self_iff, Text.join_eq_self_iff]
  rfl

end Expr

end BarScript
