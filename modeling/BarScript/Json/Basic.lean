/-!
# JSON values

Whole numbers and doubles are kept apart, as they are written differently, and the members of an
object keep the order in which their names first occur.

The texts in a value are strings unless said otherwise.  A value that is read has texts of code
points, as escapes can name surrogates (`Json CodePoints`).
-/

namespace BarScript

/-- A JSON value with texts in `τ`. -/
inductive Json (τ : Type := String) where
  | null
  | bool (value : Bool)
  | int (value : Int)
  | real (value : Float)
  | string (value : τ)
  | array (items : List (Json τ))
  | object (members : List (τ × Json τ))
  deriving Inhabited

namespace Json

variable {τ σ : Type}

/-- The members of an object. -/
abbrev Members (τ : Type := String) := List (τ × Json τ)

section

variable [BEq τ]

/-- The value of a member. -/
def Members.get? (name : τ) (members : Members τ) : Option (Json τ) :=
  (members.find? fun m => m.1 == name).map (·.2)

/-- Sets a member: a name that occurs keeps its place and takes the new value, a new one comes
last. -/
def Members.put (members : Members τ) (name : τ) (value : Json τ) : Members τ :=
  match members with
  | [] => [(name, value)]
  | m :: rest =>
    if m.1 == name then (name, value) :: rest else m :: Members.put rest name value

/-- The members after a run of settings, the last one of a name being the one that counts. -/
def Members.ofList (settings : List (τ × Json τ)) : Members τ :=
  settings.foldl (fun ms m => ms.put m.1 m.2) []

/-- The value of a member, if the value is an object that has it. -/
def get? (name : τ) : Json τ → Option (Json τ)
  | .object members => Members.get? name members
  | _ => none

end

mutual

/-- The value with a function applied to every text in it. -/
def mapTexts (f : τ → σ) : Json τ → Json σ
  | .null => .null
  | .bool value => .bool value
  | .int value => .int value
  | .real value => .real value
  | .string value => .string (f value)
  | .array items => .array (mapItems f items)
  | .object members => .object (mapMembers f members)

/-- The items of an array with a function applied to every text. -/
def mapItems (f : τ → σ) : List (Json τ) → List (Json σ)
  | [] => []
  | item :: rest => mapTexts f item :: mapItems f rest

/-- The members of an object with a function applied to every text. -/
def mapMembers (f : τ → σ) : List (τ × Json τ) → List (σ × Json σ)
  | [] => []
  | (name, value) :: rest => (f name, mapTexts f value) :: mapMembers f rest

end

@[simp] theorem mapItems_eq_map (f : τ → σ) (items : List (Json τ)) :
    mapItems f items = items.map (mapTexts f) := by
  induction items with
  | nil => rfl
  | cons item rest ih => rw [mapItems, ih, List.map_cons]

@[simp] theorem mapMembers_eq_map (f : τ → σ) (members : List (τ × Json τ)) :
    mapMembers f members = members.map fun m => (f m.1, mapTexts f m.2) := by
  induction members with
  | nil => rfl
  | cons m rest ih => rw [mapMembers, ih, List.map_cons]

mutual

/-- Texts are as they were if a function is applied to them and undone. -/
theorem mapTexts_inverse {f : τ → σ} {g : σ → τ} (h : ∀ s, g (f s) = s) :
    ∀ v : Json τ, (v.mapTexts f).mapTexts g = v
  | .null => rfl
  | .bool _ => rfl
  | .int _ => rfl
  | .real _ => rfl
  | .string s => by rw [mapTexts, mapTexts, h]
  | .array items => by rw [mapTexts, mapTexts, mapItems_inverse h items]
  | .object members => by rw [mapTexts, mapTexts, mapMembers_inverse h members]

theorem mapItems_inverse {f : τ → σ} {g : σ → τ} (h : ∀ s, g (f s) = s) :
    ∀ items : List (Json τ), mapItems g (mapItems f items) = items
  | [] => rfl
  | item :: rest => by rw [mapItems, mapItems, mapTexts_inverse h item, mapItems_inverse h rest]

theorem mapMembers_inverse {f : τ → σ} {g : σ → τ} (h : ∀ s, g (f s) = s) :
    ∀ members : List (τ × Json τ), mapMembers g (mapMembers f members) = members
  | [] => rfl
  | (name, value) :: rest => by
    rw [mapMembers, mapMembers, h, mapTexts_inverse h value, mapMembers_inverse h rest]

end

/-- The text of an optional text, `null` for none. -/
def ofOption {α : Type} (f : α → Json) : Option α → Json
  | none => .null
  | some a => f a

end Json

end BarScript
