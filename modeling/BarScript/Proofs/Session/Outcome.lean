import BarScript.Proofs.Grammar.Complete
import BarScript.Proofs.Grammar.Offset
import BarScript.Proofs.Session.Containment

/-!
# Every run has an outcome, with one exception

A script that cannot be compiled is reported in the outcome of a run, as a failed evaluation is,
except for one error: a number of bars in brackets with more digits than a whole number may have is
not reported, and the run has no outcome (`Rules.settled`).
-/

namespace BarScript

open Grammar

/-! ### Compiling -/

theorem Rule.ofFormula_ne_offsetTooLong (source : String) (f : Formula) (digits : Nat) :
    Rule.ofFormula source f ≠ .error (.offsetTooLong digits) := by
  rw [ofFormula]
  split <;> simp

theorem Rule.mapM_ofFormula_ne_offsetTooLong (source : String) (f : Option Formula)
    (digits : Nat) : f.mapM (Rule.ofFormula source) ≠ .error (.offsetTooLong digits) := by
  cases f with
  | none => exact nofun
  | some f =>
    intro h
    rcases bind_eq_error_iff.1 h with h | ⟨r, -, h⟩
    · exact ofFormula_ne_offsetTooLong source f digits h
    · cases h

theorem Program.hasLongOffset_of_mapError {source : String} {digits : Nat}
    (h : (parse source).mapError CompileError.ofParse = .error (.offsetTooLong digits)) :
    HasLongOffset source digits := by
  rcases parse_cases source with ⟨p, hp⟩ | ⟨e, he⟩ | ⟨n, hn, hlong⟩
  · rw [hp] at h; cases h
  · rw [he] at h; cases h
  · rw [hn] at h; cases h; exact hlong

theorem Rule.hasLongOffset_of_compile {script : String} {digits : Nat}
    (h : compile script = .error (.offsetTooLong digits)) :
    Program.HasLongOffset (Text.strip script) digits := by
  simp only [compile] at h
  split at h
  · cases h
  · rcases bind_eq_error_iff.1 h with h | ⟨p, -, h⟩
    · exact Program.hasLongOffset_of_mapError h
    · exact absurd h (ofFormula_ne_offsetTooLong _ _ _)

namespace Rules

theorem hasLongOffset_of_compileSide {script : Option String} {digits : Nat}
    (h : compileSide script = .error (.offsetTooLong digits)) :
    Program.HasLongOffset (Text.strip (script.getD "")) digits := by
  rw [compileSide] at h
  split at h
  · cases h
  · exact Rule.hasLongOffset_of_compile (map_eq_error_iff.1 h)

theorem hasLongOffset_of_ofCombined {script : Option String} {digits : Nat}
    (h : ofCombined script = .error (.offsetTooLong digits)) :
    Program.HasLongOffset (Text.strip (script.getD "")) digits := by
  simp only [ofCombined] at h
  split at h
  · cases h
  · rcases bind_eq_error_iff.1 h with h | ⟨p, -, h⟩
    · exact Program.hasLongOffset_of_mapError h
    · split at h
      · cases h
      · rcases bind_eq_error_iff.1 h with h | ⟨buy, -, h⟩
        · exact absurd h (Rule.mapM_ofFormula_ne_offsetTooLong _ _ _)
        · rcases bind_eq_error_iff.1 h with h | ⟨sell, -, h⟩
          · exact absurd h (Rule.mapM_ofFormula_ne_offsetTooLong _ _ _)
          · cases h

theorem compiled_of_compileSide {script : Option String} {rule : Option Rule} {r : Rule}
    (h : compileSide script = .ok rule) (hr : rule = some r) : r.Compiled := by
  rcases compileSide_eq_ok_iff.1 h with ⟨-, rfl⟩ | ⟨r', hr', rfl⟩
  · cases hr
  · cases hr
    exact .script hr'

/-! ### Running -/

theorem exists_run {rules : Rules} (h : ∀ r, rules.buy = some r ∨ rules.sell = some r → r.Compiled)
    (s : Session) : ∃ outcome, (rules.run s).1 = .ok outcome := by
  obtain ⟨buy, s₁, hbuy⟩ := exists_runSide (fun r hr => h r (.inl hr)) s
  obtain ⟨sell, s₂, hsell⟩ := exists_runSide (fun r hr => h r (.inr hr)) s₁
  refine ⟨outcome buy sell, ?_⟩
  rw [run, hbuy]
  simp only [hsell]

/-- A run of scripts has an outcome, or fails for a number of bars in one of them that is too
long. -/
def Settled (scripts : List String) (result : Except RunError Outcome) : Prop :=
  (∃ outcome, result = .ok outcome) ∨ ∃ digits, result = .error (.offsetTooLong digits) ∧
    ∃ script ∈ scripts, Program.HasLongOffset (Text.strip script) digits

theorem settled_runCompiled {rules : Except CompileError Rules} {scripts : List String}
    (hok : ∀ rs, rules = .ok rs → ∀ r, rs.buy = some r ∨ rs.sell = some r → r.Compiled)
    (herror : ∀ digits, rules = .error (.offsetTooLong digits) →
      ∃ script ∈ scripts, Program.HasLongOffset (Text.strip script) digits) (s : Session) :
    Settled scripts (runCompiled rules s).1 := by
  cases rules with
  | ok rs => exact .inl (exists_run (hok rs rfl) s)
  | error e =>
    cases e with
    | offsetTooLong digits => exact .inr ⟨digits, rfl, herror digits rfl⟩
    | _ => exact .inl ⟨_, rfl⟩

theorem settled_runSingle (script : String) (side : Side) (s : Session) :
    Settled [script] (runSingle script side s).1 := by
  refine settled_runCompiled (fun rs h r hr => ?_) (fun digits h => ?_) s
  · obtain ⟨r', hr', rfl⟩ := map_eq_ok_iff.1 h
    have : r = r' := by cases side <;> simpa [eq_comm] using hr
    exact this ▸ .script hr'
  · exact ⟨script, by simp, Rule.hasLongOffset_of_compile (map_eq_error_iff.1 h)⟩

theorem settled_runScripts (buy sell : Option String) (s : Session) :
    Settled [buy.getD "", sell.getD ""] (runScripts buy sell s).1 := by
  refine settled_runCompiled (fun rs h r hr => ?_) (fun digits h => ?_) s
  · obtain ⟨hb, hc⟩ := compile_eq_ok_iff.1 h
    exact hr.elim (compiled_of_compileSide hb) (compiled_of_compileSide hc)
  · rcases bind_eq_error_iff.1 h with h | ⟨b, -, h⟩
    · exact ⟨_, by simp, hasLongOffset_of_compileSide h⟩
    · rcases bind_eq_error_iff.1 h with h | ⟨c, -, h⟩
      · exact ⟨_, by simp, hasLongOffset_of_compileSide h⟩
      · cases h

theorem settled_runCombined (script : Option String) (s : Session) :
    Settled [script.getD ""] (runCombined script s).1 :=
  settled_runCompiled (fun _ h _ hr => .combined h hr)
    (fun _ h => ⟨_, by simp, hasLongOffset_of_ofCombined h⟩) s

/-- **Every run has an outcome, with one exception.**  In any session, a run of one script, of two
scripts or of one script for both sides has an outcome, unless it fails for a number of bars with
too many digits that a script has in brackets.  In the same way every text gives a program or an
error at a place in it, unless it has such a number. -/
theorem settled (s : Session) :
    (∀ script side, Settled [script] (runSingle script side s).1) ∧
      (∀ buy sell, Settled [buy.getD "", sell.getD ""] (runScripts buy sell s).1) ∧
      (∀ script, Settled [script.getD ""] (runCombined script s).1) ∧
      ∀ source, (∃ p, Program.parse source = .ok p) ∨
        (∃ e, Program.parse source = .error (.parse e)) ∨
        ∃ digits, Program.parse source = .error (.offsetTooLong digits) ∧
          Program.HasLongOffset source digits :=
  ⟨fun script side => settled_runSingle script side s,
    fun buy sell => settled_runScripts buy sell s, fun script => settled_runCombined script s,
    Program.parse_cases⟩

end Rules

/-! ### A number of bars that is too long -/

/-- The text `close[11…1]`, with so many ones. -/
def closeBack (digits : Nat) : String :=
  String.ofList ('c' :: 'l' :: 'o' :: 's' :: 'e' :: '[' :: List.replicate digits '1' ++ [']'])

theorem next?_ones (n : Nat) : Lexeme.next? (List.replicate (n + 1) '1' ++ [']']) =
    some ⟨.token .number, List.replicate (n + 1) '1', [']']⟩ := by
  have hdigit : ∀ c ∈ List.replicate (n + 1) '1', Text.isDigit c = true := fun c hc =>
    List.eq_of_mem_replicate hc ▸ rfl
  have htake : (List.replicate (n + 1) '1' ++ [']']).takeWhile Text.isDigit =
      List.replicate (n + 1) '1' := by
    rw [List.takeWhile_append_of_pos hdigit]
    exact List.append_nil _
  have hdrop : (List.replicate (n + 1) '1' ++ [']']).dropWhile Text.isDigit = [']'] := by
    rw [List.dropWhile_append_of_pos hdigit]
    rfl
  have hnumber : Lexeme.number? (List.replicate (n + 1) '1' ++ [']']) =
      some ⟨.token .number, List.replicate (n + 1) '1', [']']⟩ := by
    simp [Lexeme.number?, Lexeme.span, htake, hdrop]
  have hspace : Lexeme.isSpace '1' = false := rfl
  rw [List.replicate_succ, List.cons_append] at hnumber ⊢
  simp [Lexeme.next?, hspace, hnumber]

theorem scan_closeBack (n : Nat) : Token.scan (closeBack (n + 1)) =
    .ok [⟨.word, "close", 0⟩, ⟨.openBracket, "[", 5⟩,
      ⟨.number, String.ofList (List.replicate (n + 1) '1'), 6⟩, ⟨.closeBracket, "]", n + 7⟩] := by
  have hword : ∀ cs, Lexeme.next? ('c' :: 'l' :: 'o' :: 's' :: 'e' :: '[' :: cs) =
      some ⟨.token .word, ['c', 'l', 'o', 's', 'e'], '[' :: cs⟩ := fun _ => rfl
  have hopen : ∀ cs, Lexeme.next? ('[' :: cs) = some ⟨.token .openBracket, ['['], cs⟩ :=
    fun _ => rfl
  have hclose : Lexeme.next? [']'] = some ⟨.token .closeBracket, [']'], []⟩ := rfl
  have hones := next?_ones n
  rw [List.replicate_succ, List.cons_append] at hones
  have hlength : (closeBack (n + 1)).length = n + 8 := by
    simp only [closeBack, String.length_ofList, List.length_append, List.length_cons,
      List.length_replicate, List.length_nil]
  rw [Token.scan, hlength, closeBack, String.toList_ofList]
  simp [List.replicate_succ, Token.scanFrom, hword, hopen, hones, hclose, Nat.add_comm]

open Statement in
/-- The failure of a signed operand is that of the expression that begins with it. -/
theorem group_eq_error {deeper : Option Level} {t : Token} {ts : List Token} {e : Failure}
    (ht : isNot t = false) (h : (levelOver deeper).signed (t :: ts) = .error e) :
    (levelOver (some (levelOver deeper))).group (t :: ts) = .error e := by
  have hnegated : (levelOver deeper).negated (t :: ts) = .error e := by
    rw [levelOver_negated, leading_of_not ht]
    simp [comparison, leftChain, h, bind, Except.bind]
  change logicalChain "OR" isOr (logicalChain "AND" isAnd (levelOver deeper).negated) _ = _
  simp [logicalChain, hnegated, bind, Except.bind]

open Statement in
theorem signed_closeBack (deeper : Option Level) {digits : String}
    (h : Numeral.maxIntDigits < digits.toList.length) (hdot : '.' ∉ digits.toList)
    (position : Nat) :
    (levelOver deeper).signed [⟨.word, "close", 0⟩, ⟨.openBracket, "[", 5⟩, ⟨.number, digits, 6⟩,
      ⟨.closeBracket, "]", position⟩] = .error (.offsetTooLong digits.toList.length) := by
  have hname : IsName ⟨.word, "close", 0⟩ := ⟨rfl, by decide +kernel⟩
  have hoffset : offset ⟨.number, digits, 6⟩ = .error (.offsetTooLong digits.toList.length) :=
    offset_eq_tooLong_iff.2 ⟨rfl, h⟩
  rw [levelOver_signed, leading_of_not rfl]
  simp [withHistory, primary, hname.2, histories, expect, hdot, hoffset, bind, Except.bind]

theorem statements_eq_error (fuel : Nat) (p : Program.Partial) {t : Token} {ts : List Token}
    {e : Statement.Failure} (hkind : t.kind ≠ .separator)
    (htarget : Statement.target (t :: ts) = .ok (none, t :: ts))
    (h : Statement.expression (t :: ts) = .error e) :
    Program.statements (fuel + 1) p (t :: ts) = .error e := by
  simp [Program.statements_succ, Program.skipSeparators, hkind, htarget, h, bind, Except.bind]

theorem expression_closeBack {digits : String}
    (h : Numeral.maxIntDigits < digits.toList.length) (hdot : '.' ∉ digits.toList)
    (position : Nat) :
    Statement.expression [⟨.word, "close", 0⟩, ⟨.openBracket, "[", 5⟩, ⟨.number, digits, 6⟩,
      ⟨.closeBracket, "]", position⟩] = .error (.offsetTooLong digits.toList.length) :=
  group_eq_error (by decide +kernel) (signed_closeBack (some (Statement.levels 62)) h hdot position)

theorem parse_closeBack {digits : Nat} (h : Numeral.maxIntDigits < digits) :
    Program.parse (closeBack digits) = .error (.offsetTooLong digits) := by
  cases digits with
  | zero => exact absurd h (Nat.not_lt_zero _)
  | succ n =>
    have hlength : (String.ofList (List.replicate (n + 1) '1')).toList.length = n + 1 := by simp
    have hdot : '.' ∉ (String.ofList (List.replicate (n + 1) '1')).toList := by simp
    have hexpression := expression_closeBack (by rwa [hlength]) hdot (n + 7)
    rw [hlength] at hexpression
    have hstatements := statements_eq_error 4 .empty (by simp) rfl hexpression
    simp [Program.parse, scan_closeBack, hstatements, Except.mapError, bind, Except.bind,
      Program.failureIn]

theorem strip_closeBack (digits : Nat) : Text.strip (closeBack digits) = closeBack digits := by
  have hc : Text.isBlank 'c' = false := by decide +kernel
  have hclose : Text.isBlank ']' = false := by decide +kernel
  simp [Text.strip, closeBack, Text.trim, hc, hclose]

theorem Rule.compile_closeBack {digits : Nat} (h : Numeral.maxIntDigits < digits) :
    compile (closeBack digits) = .error (.offsetTooLong digits) := by
  have hne : (closeBack digits).isEmpty = false := by simp [closeBack]
  simp [compile, strip_closeBack, hne, parse_closeBack h, Except.mapError, bind, Except.bind,
    CompileError.ofParse]

/-- **A number of bars with too many digits is not reported**, whatever the session. -/
theorem Rules.runSingle_closeBack {digits : Nat} (h : Numeral.maxIntDigits < digits) (side : Side)
    (s : Session) : (runSingle (closeBack digits) side s).1 = .error (.offsetTooLong digits) := by
  rw [runSingle, Rule.compile_closeBack h]
  rfl

theorem Rules.isBlank_closeBack (digits : Nat) : isBlank (some (closeBack digits)) = false := by
  rw [isBlank, Option.getD_some, strip_closeBack]
  simp [closeBack]

theorem Rules.runScripts_closeBack {digits : Nat} (h : Numeral.maxIntDigits < digits)
    (sell : Option String) (s : Session) :
    (runScripts (some (closeBack digits)) sell s).1 = .error (.offsetTooLong digits) := by
  have hside : compileSide (some (closeBack digits)) = .error (.offsetTooLong digits) := by
    rw [compileSide, isBlank_closeBack, Option.getD_some, Rule.compile_closeBack h]
    rfl
  rw [runScripts, compile, hside]
  rfl

/-- One digit more than is allowed leaves a run without an outcome, and the text with neither a
program nor an error at a place in it. -/
theorem Rules.runSingle_closeBack_ne_ok :
    (¬∃ outcome, (runSingle (closeBack (Numeral.maxIntDigits + 1)) .buy
        (.start ⟨"A", ⟨4, 0⟩, ⟨[1, 2, 3], fun _ => none, by simp⟩, 0.001⟩)).1 = .ok outcome) ∧
      ¬((∃ p, Program.parse (closeBack (Numeral.maxIntDigits + 1)) = .ok p) ∨
        ∃ e, Program.parse (closeBack (Numeral.maxIntDigits + 1)) = .error (.parse e)) := by
  have hlong : Numeral.maxIntDigits < Numeral.maxIntDigits + 1 := Nat.lt_succ_self _
  rw [runSingle_closeBack hlong, parse_closeBack hlong]
  constructor
  · rintro ⟨outcome, h⟩
    cases h
  · rintro (⟨p, h⟩ | ⟨e, h⟩) <;> cases h

end BarScript
