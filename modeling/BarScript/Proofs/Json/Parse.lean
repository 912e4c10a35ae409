import BarScript.Proofs.Json.Number
import BarScript.Proofs.Json.Text

/-!
# Reading a value that was written

The text of a value is read as the value (`parse_render`), with either set of characters.  The value
must not be nested too deeply, its whole numbers must not be too long, its doubles not be NaN, and
an object must not have two members of one name (`Readable`).  A reader with room for more levels
reads what is nested more deeply (`parseWithin_render`).

What holds of the texts in a value holds of the value: if every text is read as `f` of it
(`Reader.ReadsTexts`), the value is read with `f` applied to all its texts (`readWithin_chars`).  So
a value whose texts are strings is read back, and one whose texts are code points is read with their
pairs of surrogates put together (`read_renderPoints`).

A reader that reads every item of an array reads the array (`Reader.array_separated`), and the same
holds for the members of an object (`Reader.object_separated`); the theorem follows by induction on
the value.
-/

namespace BarScript.Json

open Number

variable {τ : Type}

/-- A value whose text is read, inside at most `room` more levels of arrays and objects. -/
inductive Readable : Nat → Json τ → Prop
  | null (room : Nat) : Readable room .null
  | bool (room : Nat) (b : Bool) : Readable room (.bool b)
  | int (room : Nat) {n : Int} (h : (digitChars n.natAbs).length ≤ Numeral.maxIntDigits) :
    Readable room (.int n)
  | real (room : Nat) {x : Float} (h : x.isNaN = false) : Readable room (.real x)
  | string (room : Nat) (s : τ) : Readable room (.string s)
  | array {room : Nat} {items : List (Json τ)} (h : ∀ i ∈ items, Readable room i) :
    Readable (room + 1) (.array items)
  | object {room : Nat} {members : List (τ × Json τ)} (hnames : (members.map (·.1)).Nodup)
    (h : ∀ m ∈ members, Readable room m.2) : Readable (room + 1) (.object members)

theorem Readable.mono {room room' : Nat} {v : Json τ} (h : Readable room v) (hle : room ≤ room') :
    Readable room' v := by
  induction h generalizing room' with
  | null => exact .null _
  | bool _ b => exact .bool _ b
  | int _ h => exact .int _ h
  | real _ h => exact .real _ h
  | string _ s => exact .string _ s
  | array _ ih =>
    obtain ⟨k, rfl⟩ := Nat.exists_eq_add_of_le hle
    rw [Nat.add_right_comm]
    exact .array fun i hi => ih i hi (Nat.le_add_right _ _)
  | object hnames _ ih =>
    obtain ⟨k, rfl⟩ := Nat.exists_eq_add_of_le hle
    rw [Nat.add_right_comm]
    exact .object hnames fun m hm => ih m hm (Nat.le_add_right _ _)

/-- Texts may be replaced by different ones for different ones. -/
theorem Readable.mapTexts {σ : Type} {f : τ → σ} (hf : ∀ s t, f s = f t → s = t) {room : Nat}
    {v : Json τ} (h : Readable room v) : Readable room (v.mapTexts f) := by
  induction h with
  | null => exact .null _
  | bool _ b => exact .bool _ b
  | int _ h => exact .int _ h
  | real _ h => exact .real _ h
  | string _ s => exact .string _ (f s)
  | array _ ih =>
    rw [Json.mapTexts, mapItems_eq_map]
    exact .array (List.forall_mem_map.2 ih)
  | @object room members hnames _ ih =>
    rw [Json.mapTexts, mapMembers_eq_map]
    refine .object ?_ (List.forall_mem_map.2 ih)
    have hmap : (members.map fun m => (f m.1, m.2.mapTexts f)).map (·.1) =
        (members.map (·.1)).map f := by simp
    rw [hmap]
    exact hnames.map hf

/-! ### Members -/

section

variable [BEq τ] [LawfulBEq τ]

theorem Members.put_of_not_mem {members : Members τ} {name : τ} (value : Json τ)
    (h : name ∉ members.map (·.1)) :
    Members.put members name value = members ++ [(name, value)] := by
  induction members with
  | nil => rfl
  | cons m ms ih =>
    rw [List.map_cons, List.mem_cons, not_or] at h
    rw [Members.put, if_neg (by simpa using Ne.symm h.1), ih h.2]
    rfl

theorem Members.foldl_put {members settings : Members τ}
    (h : ((members ++ settings).map (·.1)).Nodup) :
    settings.foldl (fun ms m => Members.put ms m.1 m.2) members = members ++ settings := by
  induction settings generalizing members with
  | nil => simp
  | cons m ms ih =>
    have hnew : m.1 ∉ members.map (·.1) := by
      rw [List.map_append, List.nodup_append] at h
      exact fun hm => h.2.2 _ hm m.1 (by simp) rfl
    rw [List.foldl_cons, Members.put_of_not_mem m.2 hnew, ih (by simpa using h)]
    simp

/-- Members of different names stay as they are. -/
theorem Members.ofList_of_nodup {members : Members τ} (h : (members.map (·.1)).Nodup) :
    Members.ofList members = members := Members.foldl_put (by simpa using h)

end

/-! ### The first character -/

/-- A character that a value can begin with. -/
def Opens (c : Char) : Prop :=
  Reader.isSpace (.char c) = false ∧ c ≠ ']' ∧ c ≠ '\x7d' ∧ c ≠ '\uFEFF'

instance (c : Char) : Decidable (Opens c) := inferInstanceAs (Decidable (_ ∧ _))

theorem opens_of_isDigit {c : Char} (h : c.isDigit = true) : Opens c := by
  have hne : ∀ {d : Char}, d.isDigit = false → c ≠ d := by
    rintro d hd rfl
    rw [h] at hd
    cases hd
  refine ⟨?_, hne rfl, hne rfl, hne rfl⟩
  simp [Reader.isSpace, hne (rfl : ' '.isDigit = false), hne (rfl : '\t'.isDigit = false),
    hne (rfl : '\n'.isDigit = false), hne (rfl : '\r'.isDigit = false)]

/-- The text of a value begins with such a character. -/
theorem exists_chars (escape : τ → List Char) (v : Json τ) :
    ∃ c cs, chars escape v = c :: cs ∧ Opens c := by
  have hdigits : ∀ {cs : List Char}, Reader.StartsDigit cs → ∃ c ds, cs = c :: ds ∧ Opens c := by
    rintro cs ⟨c, ds, rfl, hc⟩
    exact ⟨c, ds, rfl, opens_of_isDigit hc⟩
  cases v with
  | null => exact ⟨'n', _, rfl, by decide⟩
  | bool b => cases b <;> exact ⟨_, _, rfl, by decide⟩
  | int n =>
    rw [chars, intText]
    split
    · rw [String.toList_ofList]
      exact ⟨'-', _, rfl, by decide⟩
    · rw [String.toList_ofList, ← List.append_nil (digitChars n.natAbs)]
      exact hdigits (Reader.startsDigit_wholeDigits (.digitChars n.natAbs) [])
  | real x =>
    rw [chars, Number.chars]
    cases hk : kindOf x with
    | nan => exact ⟨'N', _, rfl, by decide⟩
    | infinite negative => cases negative <;> exact ⟨_, _, rfl, by decide⟩
    | finite v =>
      simp only
      split
      · exact ⟨'-', _, rfl, by decide⟩
      · obtain ⟨p, htext, hp, -⟩ := Reader.exists_setOut_json hk
        rw [htext, ← List.append_nil p.text]
        exact hdigits (Reader.startsDigit_text hp [])
  | string s => exact ⟨'"', _, rfl, by decide⟩
  | array items => exact ⟨'[', _, rfl, by decide⟩
  | object members => exact ⟨'\x7b', _, rfl, by decide⟩

namespace Reader

theorem skipSpace_cons {p : CodePoint} (h : isSpace p = false) (ps : CodePoints) :
    skipSpace (p :: ps) = p :: ps := List.dropWhile_cons_of_neg (by simp [h])

@[simp] theorem skipSpace_space (ps : CodePoints) :
    skipSpace (.char ' ' :: ps) = skipSpace ps := rfl

theorem skipSpace_chars (escape : τ → List Char) (v : Json τ) (rest : CodePoints) :
    skipSpace ((chars escape v).map .char ++ rest) = (chars escape v).map .char ++ rest := by
  obtain ⟨c, cs, h, hc⟩ := exists_chars escape v
  rw [h]
  exact skipSpace_cons hc.1 _

/-- What is read as a word or a number is neither a text nor an array nor an object. -/
theorem value_of_atom (room : Nat) {ps : CodePoints} {r : Json CodePoints × CodePoints}
    (h : atom ps = .ok r) : value room ps = .ok r := by
  cases ps with
  | nil => cases h
  | cons p ps =>
    have hquote : p ≠ .char '"' := by
      rintro rfl
      cases h
    have hbracket : p ≠ .char '[' := by
      rintro rfl
      cases h
    have hbrace : p ≠ .char '\x7b' := by
      rintro rfl
      cases h
    rw [← h]
    unfold value
    split <;> simp_all

theorem exists_separated (item : List Char) (rest : List (List Char)) :
    ∃ cs, separated (item :: rest) = item ++ cs := by
  cases rest with
  | nil => exact ⟨[], (List.append_nil _).symm⟩
  | cons next rest => exact ⟨_, rfl⟩

/-- The text of several items in front of what ends them. -/
theorem map_separated (item next : List Char) (rest : List (List Char)) (ps : CodePoints) :
    (separated (item :: next :: rest)).map .char ++ ps =
      item.map .char ++ .char ',' :: .char ' ' :: ((separated (next :: rest)).map .char ++ ps) := by
  simp [separated]

/-! ### Arrays -/

section

variable (escape : τ → List Char) (f : τ → CodePoints)

/-- What is written for a text is read as `f` of it. -/
def ReadsTexts : Prop :=
  ∀ s rest, string ((escape s).map .char ++ .char '"' :: rest) = .ok (f s, rest)

/-- A reader reads the text of a value, whatever delimits it. -/
def Reads (item : Read CodePoint (Json CodePoints)) (v : Json τ) : Prop :=
  ∀ rest, Delimited rest →
    item ((chars escape v).map .char ++ rest) = .ok (v.mapTexts f, rest)

theorem itemChars_eq_map (items : List (Json τ)) :
    itemChars escape items = items.map (chars escape) := by
  induction items with
  | nil => rfl
  | cons i is ih => rw [itemChars, ih, List.map_cons]

end

section

variable {item : Read CodePoint (Json CodePoints)} {escape : τ → List Char} {f : τ → CodePoints}

theorem skipSpace_items (v : Json τ) (vs : List (Json τ)) (rest : CodePoints) :
    skipSpace ((separated ((v :: vs).map (chars escape))).map .char ++ rest) =
      (separated ((v :: vs).map (chars escape))).map .char ++ rest := by
  obtain ⟨cs, hcs⟩ := exists_separated (chars escape v) (vs.map (chars escape))
  rw [List.map_cons, hcs, List.map_append, List.append_assoc]
  exact skipSpace_chars escape v _

theorem items_last {v : Json CodePoints} {ps rest : CodePoints}
    (h : item ps = .ok (v, .char ']' :: rest)) (fuel : Nat) (done : List (Json CodePoints)) :
    items item (fuel + 1) done ps = .ok ((v :: done).reverse, rest) := by
  rw [items, h]
  rfl

theorem items_next {v : Json CodePoints} {ps rest : CodePoints}
    (h : item ps = .ok (v, .char ',' :: .char ' ' :: rest)) (hrest : skipSpace rest = rest)
    (fuel : Nat) (done : List (Json CodePoints)) :
    items item (fuel + 1) done ps = items item fuel (v :: done) rest := by
  have hcomma : skipSpace (.char ',' :: .char ' ' :: rest) = .char ',' :: .char ' ' :: rest := rfl
  rw [items, h]
  simp only [hcomma, skipSpace_space, hrest]

theorem items_separated {v : Json τ} {vs : List (Json τ)}
    (h : ∀ i ∈ v :: vs, Reads escape f item i) {fuel : Nat} (hfuel : vs.length < fuel)
    (done : List (Json CodePoints)) (rest : CodePoints) :
    items item fuel done
        ((separated ((v :: vs).map (chars escape))).map .char ++ .char ']' :: rest) =
      .ok (done.reverse ++ (v :: vs).map (mapTexts f), rest) := by
  induction vs generalizing v fuel done with
  | nil =>
    obtain ⟨fuel, rfl⟩ := Nat.exists_eq_succ_of_ne_zero (Nat.ne_of_gt hfuel)
    refine (items_last (h v List.mem_cons_self _ (.bracket rest)) fuel done).trans ?_
    rw [List.reverse_cons]
    rfl
  | cons w vs ih =>
    obtain ⟨fuel, rfl⟩ := Nat.exists_eq_succ_of_ne_zero (Nat.ne_of_gt (Nat.zero_lt_of_lt hfuel))
    rw [List.map_cons, List.map_cons, map_separated, ← List.map_cons,
      items_next (h v List.mem_cons_self _ (.comma _)) (skipSpace_items w vs _),
      ih (fun i hi => h i (List.mem_cons_of_mem v hi)) (Nat.lt_of_succ_lt_succ hfuel),
      List.reverse_cons, List.append_assoc]
    rfl

theorem length_le_separated {α : Type} {f : α → List Char} (hf : ∀ a, f a ≠ []) (as : List α) :
    as.length ≤ (separated (as.map f)).length := by
  induction as with
  | nil => exact Nat.zero_le _
  | cons a as ih =>
    have hpos := List.length_pos_iff.2 (hf a)
    cases as with
    | nil => simpa [separated] using Nat.succ_le_of_lt hpos
    | cons b bs =>
      simp only [List.map_cons, separated, List.length_append, List.length_cons] at ih ⊢
      omega

theorem chars_ne_nil (escape : τ → List Char) (v : Json τ) : chars escape v ≠ [] := by
  obtain ⟨c, cs, h, -⟩ := exists_chars escape v
  rw [h]
  exact List.cons_ne_nil c cs

theorem array_of_not_bracket {p : CodePoint} {ps : CodePoints} (hspace : isSpace p = false)
    (hp : p ≠ .char ']') :
    array item (p :: ps) =
      (items item ((p :: ps).length + 1) [] (p :: ps)).map fun r => (.array r.1, r.2) := by
  rw [array, skipSpace_cons hspace]
  split
  · rename_i heq
    exact absurd (List.cons.inj heq).1 hp
  · rfl

/-- **An array is read if its items are.** -/
theorem array_separated {vs : List (Json τ)} (h : ∀ i ∈ vs, Reads escape f item i)
    (rest : CodePoints) :
    array item ((separated (vs.map (chars escape))).map .char ++ .char ']' :: rest) =
      .ok (.array (vs.map (mapTexts f)), rest) := by
  cases vs with
  | nil => rfl
  | cons v vs =>
    have hlength := length_le_separated (chars_ne_nil escape) (v :: vs)
    have hfuel : vs.length < ((separated ((v :: vs).map (chars escape))).map CodePoint.char ++
        .char ']' :: rest).length + 1 := by
      rw [List.length_append, List.length_map]
      rw [List.length_cons] at hlength
      omega
    have hitems := items_separated h hfuel [] rest
    obtain ⟨c, cs, hc, hopens⟩ := exists_chars escape v
    obtain ⟨ds, hds⟩ := exists_separated (chars escape v) (vs.map (chars escape))
    have htext : (separated ((v :: vs).map (chars escape))).map CodePoint.char ++
        .char ']' :: rest = .char c :: ((cs ++ ds).map .char ++ .char ']' :: rest) := by
      rw [List.map_cons, hds, hc]
      rfl
    rw [htext] at hitems ⊢
    rw [array_of_not_bracket hopens.1 (fun h => hopens.2.1 (CodePoint.char.inj h)), hitems]
    rfl

/-! ### Objects -/

/-- The text of a member. -/
def memberText (escape : τ → List Char) (m : τ × Json τ) : List Char :=
  stringChars escape m.1 ++ ':' :: ' ' :: chars escape m.2

/-- A member with a function applied to every text. -/
def mapMember (f : τ → CodePoints) (m : τ × Json τ) : CodePoints × Json CodePoints :=
  (f m.1, m.2.mapTexts f)

theorem memberChars_eq_map (escape : τ → List Char) (ms : List (τ × Json τ)) :
    memberChars escape ms = ms.map (memberText escape) := by
  induction ms with
  | nil => rfl
  | cons m ms ih => rw [memberChars, ih, List.map_cons, memberText]

theorem exists_memberText (escape : τ → List Char) (m : τ × Json τ) :
    ∃ cs, memberText escape m = '"' :: cs := ⟨_, rfl⟩

theorem memberText_ne_nil (escape : τ → List Char) (m : τ × Json τ) : memberText escape m ≠ [] :=
  List.cons_ne_nil _ _

theorem member_memberText (hf : ReadsTexts escape f) {m : τ × Json τ}
    (h : Reads escape f item m.2) {rest : CodePoints} (hr : Delimited rest) :
    member item ((memberText escape m).map .char ++ rest) = .ok (mapMember f m, rest) := by
  have htext : (memberText escape m).map .char ++ rest =
      .char '"' :: ((escape m.1).map .char ++ .char '"' :: .char ':' :: .char ' ' ::
        ((chars escape m.2).map .char ++ rest)) := by
    simp [memberText, stringChars]
  have hcolon : skipSpace (.char ':' :: .char ' ' :: ((chars escape m.2).map .char ++ rest)) =
      .char ':' :: .char ' ' :: ((chars escape m.2).map .char ++ rest) := rfl
  rw [htext, member, hf]
  simp only [hcolon, skipSpace_space, skipSpace_chars, h rest hr]
  rfl

theorem skipSpace_members (m : τ × Json τ) (ms : List (τ × Json τ)) (rest : CodePoints) :
    skipSpace ((separated ((m :: ms).map (memberText escape))).map .char ++ rest) =
      (separated ((m :: ms).map (memberText escape))).map .char ++ rest := by
  obtain ⟨cs, hcs⟩ := exists_separated (memberText escape m) (ms.map (memberText escape))
  obtain ⟨ds, hds⟩ := exists_memberText escape m
  rw [List.map_cons, hcs, hds]
  rfl

theorem members_last {m : CodePoints × Json CodePoints} {ps rest : CodePoints}
    (h : member item ps = .ok (m, .char '\x7d' :: rest)) (fuel : Nat)
    (done : Members CodePoints) :
    members item (fuel + 1) done ps = .ok ((m :: done).reverse, rest) := by
  rw [members, h]
  rfl

theorem members_next {m : CodePoints × Json CodePoints} {ps rest : CodePoints}
    (h : member item ps = .ok (m, .char ',' :: .char ' ' :: rest)) (hrest : skipSpace rest = rest)
    (fuel : Nat) (done : Members CodePoints) :
    members item (fuel + 1) done ps = members item fuel (m :: done) rest := by
  have hcomma : skipSpace (.char ',' :: .char ' ' :: rest) = .char ',' :: .char ' ' :: rest := rfl
  rw [members, h]
  simp only [hcomma, skipSpace_space, hrest]

theorem members_separated (hf : ReadsTexts escape f) {m : τ × Json τ} {ms : List (τ × Json τ)}
    (h : ∀ m' ∈ m :: ms, Reads escape f item m'.2) {fuel : Nat} (hfuel : ms.length < fuel)
    (done : Members CodePoints) (rest : CodePoints) :
    members item fuel done
        ((separated ((m :: ms).map (memberText escape))).map .char ++ .char '\x7d' :: rest) =
      .ok (done.reverse ++ (m :: ms).map (mapMember f), rest) := by
  induction ms generalizing m fuel done with
  | nil =>
    obtain ⟨fuel, rfl⟩ := Nat.exists_eq_succ_of_ne_zero (Nat.ne_of_gt hfuel)
    have hm := member_memberText hf (h m List.mem_cons_self) (.brace rest)
    refine (members_last hm fuel done).trans ?_
    rw [List.reverse_cons]
    rfl
  | cons m' ms ih =>
    obtain ⟨fuel, rfl⟩ := Nat.exists_eq_succ_of_ne_zero (Nat.ne_of_gt (Nat.zero_lt_of_lt hfuel))
    have hm := member_memberText hf (h m List.mem_cons_self) (.comma (.char ' ' ::
      ((separated ((m' :: ms).map (memberText escape))).map .char ++ .char '\x7d' :: rest)))
    rw [List.map_cons, List.map_cons, map_separated, ← List.map_cons,
      members_next hm (skipSpace_members m' ms _),
      ih (fun i hi => h i (List.mem_cons_of_mem m hi)) (Nat.lt_of_succ_lt_succ hfuel),
      List.reverse_cons, List.append_assoc]
    rfl

theorem object_of_quote (ps : CodePoints) :
    object item (.char '"' :: ps) =
      (members item ((.char '"' :: ps).length + 1) [] (.char '"' :: ps)).map
        fun r => (.object (Members.ofList r.1), r.2) := rfl

/-- **An object is read if its members are**, provided that their names are different ones. -/
theorem object_separated (hf : ReadsTexts escape f) {ms : List (τ × Json τ)}
    (hnames : ((ms.map (mapMember f)).map (·.1)).Nodup)
    (h : ∀ m ∈ ms, Reads escape f item m.2) (rest : CodePoints) :
    object item ((separated (ms.map (memberText escape))).map .char ++ .char '\x7d' :: rest) =
      .ok (.object (ms.map (mapMember f)), rest) := by
  cases ms with
  | nil => rfl
  | cons m ms =>
    have hlength := length_le_separated (memberText_ne_nil escape) (m :: ms)
    have hfuel : ms.length < ((separated ((m :: ms).map (memberText escape))).map CodePoint.char ++
        .char '\x7d' :: rest).length + 1 := by
      rw [List.length_append, List.length_map]
      rw [List.length_cons] at hlength
      omega
    have hmembers := members_separated hf h hfuel [] rest
    obtain ⟨cs, hcs⟩ := exists_memberText escape m
    obtain ⟨ds, hds⟩ := exists_separated (memberText escape m) (ms.map (memberText escape))
    have htext : (separated ((m :: ms).map (memberText escape))).map CodePoint.char ++
        .char '\x7d' :: rest = .char '"' :: ((cs ++ ds).map .char ++ .char '\x7d' :: rest) := by
      rw [List.map_cons, hds, hcs]
      rfl
    rw [htext] at hmembers ⊢
    rw [object_of_quote, hmembers]
    simp only [Except.map, List.reverse_nil, List.nil_append, Members.ofList_of_nodup hnames]

end

/-! ### Values -/

/-- **A value is read back**, with `f` applied to its texts. -/
theorem reads_value {escape : τ → List Char} {f : τ → CodePoints} (hf : ReadsTexts escape f)
    {room : Nat} {v : Json τ} (h : Readable room (v.mapTexts f)) :
    Reads escape f (value room) v := by
  generalize hw : v.mapTexts f = w at h
  induction h generalizing v with
  | null room =>
    cases v <;> simp only [mapTexts, reduceCtorEq] at hw
    intro rest hr
    have hnull : AtomChars "null".toList := by decide
    exact value_of_atom room (atom_of_wordOrNumber hnull rfl hr)
  | bool room b =>
    cases v <;> simp only [mapTexts, reduceCtorEq] at hw
    cases hw
    intro rest hr
    have hfalse : AtomChars "false".toList := by decide
    have htrue : AtomChars "true".toList := by decide
    cases b
    · exact value_of_atom room (atom_of_wordOrNumber hfalse rfl hr)
    · exact value_of_atom room (atom_of_wordOrNumber htrue rfl hr)
  | int room h =>
    cases v <;> simp only [mapTexts, reduceCtorEq] at hw
    cases hw
    intro rest hr
    exact value_of_atom room
      (atom_of_wordOrNumber (atomChars_intText _) (wordOrNumber_intText h) hr)
  | real room h =>
    cases v <;> simp only [mapTexts, reduceCtorEq] at hw
    cases hw
    intro rest hr
    exact value_of_atom room (atom_of_wordOrNumber (atomChars_number _) (wordOrNumber_chars h) hr)
  | string room s =>
    cases v <;> simp only [mapTexts, reduceCtorEq] at hw
    rename_i s
    intro rest _
    have htext : (chars escape (.string s)).map .char ++ rest =
        .char '"' :: ((escape s).map .char ++ .char '"' :: rest) := by
      simp [chars, stringChars]
    have hvalue : value room (.char '"' :: ((escape s).map .char ++ .char '"' :: rest)) =
        (string ((escape s).map .char ++ .char '"' :: rest)).map
          fun r => (.string r.1, r.2) := by cases room <;> rfl
    rw [htext, hvalue, hf]
    rfl
  | array h ih =>
    cases v <;> simp only [mapTexts, reduceCtorEq] at hw
    rename_i items
    rw [mapItems_eq_map] at hw
    cases hw
    intro rest _
    have htext : (chars escape (.array items)).map .char ++ rest =
        .char '[' :: ((separated (items.map (chars escape))).map .char ++ .char ']' :: rest) := by
      simp [chars, itemChars_eq_map]
    rw [htext, mapTexts, mapItems_eq_map]
    exact array_separated (fun i hi => ih _ (List.mem_map_of_mem hi) rfl) rest
  | object hnames h ih =>
    cases v <;> simp only [mapTexts, reduceCtorEq] at hw
    rename_i members
    rw [mapMembers_eq_map] at hw
    cases hw
    intro rest _
    have htext : (chars escape (.object members)).map .char ++ rest = .char '{' ::
        ((separated (members.map (memberText escape))).map .char ++ .char '}' :: rest) := by
      simp [chars, memberChars_eq_map]
    rw [htext, mapTexts, mapMembers_eq_map]
    exact object_separated hf hnames (fun m hm => ih _ (List.mem_map_of_mem hm) rfl) rest

end Reader

/-! ### Whole texts -/

open Reader in
/-- **The text of a value is read with `f` applied to its texts**, if there is room for its
nesting. -/
theorem readWithin_chars {escape : τ → List Char} {f : τ → CodePoints} (hf : ReadsTexts escape f)
    {room : Nat} {v : Json τ} (h : Readable room (v.mapTexts f)) :
    readWithin room ((chars escape v).map .char) = .ok (v.mapTexts f) := by
  obtain ⟨c, cs, hc, hopens⟩ := exists_chars escape v
  have hread := reads_value hf h [] .nil
  have hspace := skipSpace_chars escape v []
  rw [List.append_nil] at hread hspace
  have hdocument : Reader.document room ((chars escape v).map .char) = .ok (v.mapTexts f) := by
    rw [Reader.document, hspace, hread]
    rfl
  rw [readWithin, hdocument, if_neg (by simpa [hc] using hopens.2.2.2)]

/-- **The text of a value is read as the value**, if there is room for its nesting. -/
theorem parseWithin_render (charset : Charset) {room : Nat} {v : Json} (h : Readable room v) :
    parseWithin room (v.render charset) = .ok v := by
  have hread := readWithin_chars (Reader.string_escapeText charset)
    (h.mapTexts fun _ _ => Text.points_inj)
  rw [parseWithin, render, Text.points, String.toList_ofList, hread, Except.map,
    mapTexts_inverse Text.plain_points]

/-- So it is by the reader that has room for so many levels and no more. -/
theorem parse_render (charset : Charset) {v : Json} (h : Readable Reader.maxNesting v) :
    parse (v.render charset) = .ok v := parseWithin_render charset h

/-- **The text of a value with texts of code points is read with their pairs of surrogates put
together.** -/
theorem read_renderPoints {v : Json CodePoints}
    (h : Readable Reader.maxNesting (v.mapTexts Text.join)) :
    read (Text.points v.renderPoints) = .ok (v.mapTexts Text.join) := by
  rw [read, renderPoints, Text.points, String.toList_ofList]
  exact readWithin_chars Reader.string_escapePoints h

end BarScript.Json
