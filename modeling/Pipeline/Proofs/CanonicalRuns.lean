import Mathlib.Data.List.DropRight
import Pipeline.Proofs.Extent
import Pipeline.Proofs.RoundTrip
import Pipeline.Tool.Basic

/-!
# Runs of the tool

What the tool prints it accepts under a check and prints again, and a check fails on everything else
(`runOn_check`). Line ends behind a text on standard input are lost: no canonical text ends in one
(`endsInToken_of_canonicalize`), and any other text is read as the same tree without them
(`parse_withoutLineEnds`). Hence it is all the same how a text is given, unless it is checked.
-/

namespace Pipeline

namespace Tool

/-! ## Line ends -/

section LineEnds

variable {b s : List Char}

theorem isBlank_of_isLineEnd {c : Char} (h : isLineEnd c) : isBlank c := by
  rw [isLineEnd, Bool.or_eq_true, decide_eq_true_iff, decide_eq_true_iff] at h
  rcases h with rfl | rfl
  · rfl
  · rfl

theorem withoutLineEnds_eq_rdropWhile (s : List Char) :
    withoutLineEnds s = s.rdropWhile isLineEnd :=
  rfl

theorem withoutLineEnds_append (hb : b.all isLineEnd) (s : List Char) :
    withoutLineEnds (s ++ b) = withoutLineEnds s := by
  have hb' : ∀ c ∈ b.reverse, isLineEnd c := fun c hc =>
    List.all_eq_true.1 hb c (List.mem_reverse.1 hc)
  rw [withoutLineEnds, List.reverse_append, List.dropWhile_append_of_pos hb', withoutLineEnds]

/-- A text that ends in a token has no line end to lose. -/
theorem withoutLineEnds_of_endsInToken (h : EndsInToken s) : withoutLineEnds s = s := by
  obtain ⟨u, c, rfl, hc⟩ := h
  rw [withoutLineEnds_eq_rdropWhile]
  refine List.rdropWhile_concat_neg _ _ _ fun h => ?_
  rw [isBlank_of_isLineEnd h] at hc
  cases hc

theorem exists_blanks_withoutLineEnds (s : List Char) :
    ∃ b, b.all isBlank ∧ withoutLineEnds s ++ b = s := by
  refine ⟨s.rtakeWhile isLineEnd, List.all_eq_true.2 fun c hc => ?_, ?_⟩
  · exact isBlank_of_isLineEnd (List.mem_rtakeWhile_imp hc)
  · rw [withoutLineEnds_eq_rdropWhile, List.rdropWhile_append_rtakeWhile]

end LineEnds

end Tool

open Tool

/-! ## Canonical texts end in a token -/

section Ends

variable {empty : EmptyCall}

theorem endsInToken_close {c : Char} (hc : isBlank c = false) : EndsInToken [' ', c] :=
  endsInToken_append_singleton [' '] hc

theorem Value.endsInToken_chars : ∀ {v : Value}, v.WellFormed → EndsInToken v.chars
  | .literal _, hl => Literal.WellFormed.endsInToken hl
  | .call ⟨n, args⟩, _ => by
    have h := endsInToken_append_singleton (c := ')') (commaSeparated (Argument.allChars args)) rfl
    exact (h.cons '(').append_left n.toList

theorem Argument.endsInToken_chars : ∀ {a : Argument}, a.WellFormed → EndsInToken a.chars
  | .positional _, hv => Value.endsInToken_chars hv
  | .keyword n _, hv => ((Value.endsInToken_chars hv.2).cons '=').append_left n.toList

theorem Call.endsInToken_padded : ∀ c : Call, EndsInToken (c.padded empty)
  | ⟨n, []⟩ => by
    cases empty with
    | tight => exact (endsInToken_append_singleton ['('] rfl).append_left n.toList
    | spaced => exact ((endsInToken_close rfl).cons '(').append_left n.toList
  | ⟨n, a :: as⟩ =>
    ((((endsInToken_close rfl).append_left _).cons ' ').cons '(').append_left n.toList

theorem Source.endsInToken_chars : ∀ {d : Source}, d.WellFormed → EndsInToken (d.chars empty)
  | .name _, hn => hn.endsInToken
  | .call c, _ => c.endsInToken_padded

theorem Sink.endsInToken_chars : ∀ {t : Sink}, t.WellFormed → EndsInToken (t.chars empty)
  | .name _, hn => hn.endsInToken
  | .call c, _ => c.endsInToken_padded
  | .decorated d t, _ => by
    have h := (endsInToken_close (c := '}') rfl).append_left (t.chars empty)
    have h' := ((((h.cons ' ').cons '>').cons '=').cons ' ').append_left (d.chars empty)
    exact (h'.cons ' ').cons '{'
  | .fanOut [], h => absurd rfl h.1
  | .fanOut (t :: ts), _ => by
    have h := (endsInToken_close (c := ']') rfl).append_left
      (commaSeparated (t.chars empty :: Sink.allChars empty ts))
    exact (h.cons ' ').cons '['
  | .failover t u, _ => by
    have h := (endsInToken_close (c := '>') rfl).append_left (u.chars empty)
    have h' := (((h.cons ' ').cons '?').cons ' ').append_left (t.chars empty)
    exact (h'.cons ' ').cons '<'
  | .block c t, _ => by
    have h := (endsInToken_close (c := '}') rfl).append_left (t.chars empty)
    exact (((h.cons ' ').cons '{').cons ' ').append_left (c.padded empty)

end Ends

namespace Entry

variable {e : Entry} {empty : EmptyCall} {text c : String}

theorem endsInToken_chars : ∀ {e : Entry} {t : e.Tree}, e.WellFormed t →
    EndsInToken (e.chars empty t)
  | literal, _, h => Literal.WellFormed.endsInToken h
  | argument, _, h => Argument.endsInToken_chars h
  | source, _, h => Source.endsInToken_chars h
  | sink, _, h => Sink.endsInToken_chars h

theorem canonicalize_eq_ok :
    e.canonicalize empty text = .ok c ↔ ∃ t, e.parse text = .ok t ∧ e.write empty t = c := by
  rw [canonicalize]
  cases e.parse text with
  | error err => simp [Except.map]
  | ok t => simp [Except.map]

/-- Canonical text is its own canonical text. -/
theorem canonicalize_self (h : e.canonicalize empty text = .ok c) :
    e.canonicalize empty c = .ok c := by
  obtain ⟨t, ht, rfl⟩ := canonicalize_eq_ok.1 h
  exact canonicalize_of_parse (parse_write (wellFormed_of_parse ht) empty) empty

theorem endsInToken_of_canonicalize (h : e.canonicalize empty text = .ok c) :
    EndsInToken c.toList := by
  obtain ⟨t, ht, rfl⟩ := canonicalize_eq_ok.1 h
  rw [write, String.toList_ofList]
  exact endsInToken_chars (wellFormed_of_parse ht)

theorem parse_withoutLineEnds {t : e.Tree} :
    e.parse (String.ofList (withoutLineEnds text.toList)) = .ok t ↔ e.parse text = .ok t := by
  obtain ⟨b, hb, hs⟩ := exists_blanks_withoutLineEnds text.toList
  have h : e.parse (String.ofList ((String.ofList (withoutLineEnds text.toList)).toList ++ b)) =
      .ok t ↔ e.parse (String.ofList (withoutLineEnds text.toList)) = .ok t :=
    parse_append_blanks hb
  rw [String.toList_ofList, hs, String.ofList_toList] at h
  exact h.symm

end Entry

namespace Tool

/-! ## Runs on a text -/

section RunOn

variable {s : Settings} {text c : String}

theorem runOn_of_not_ast (hs : s.ast = false) : runOn s text =
    match s.entry.canonicalize s.empty text with
    | .error err => .failure [] err.text
    | .ok c =>
      if s.check && c != text then
        .failure ["input differs from canonical form"] ("not canonical; expected: " ++ c)
      else .success c := by
  rw [runOn, Entry.canonicalize]
  cases s.entry.parse text with
  | error err => rfl
  | ok t =>
    simp only [hs]
    rfl

theorem runOn_write (hs : s.ast = false) (hs' : s.check = false)
    (h : s.entry.canonicalize s.empty text = .ok c) : runOn s text = .success c := by
  rw [runOn_of_not_ast hs, h]
  simp only [hs']
  rfl

theorem runOn_check_self (hs : s.ast = false) (h : s.entry.canonicalize s.empty c = .ok c) :
    runOn s c = .success c := by
  rw [runOn_of_not_ast hs, h]
  simp

theorem runOn_check_ne (hs : s.ast = false) (hs' : s.check)
    (h : s.entry.canonicalize s.empty text = .ok c) (hc : c ≠ text) : runOn s text =
    .failure ["input differs from canonical form"] ("not canonical; expected: " ++ c) := by
  rw [runOn_of_not_ast hs, h]
  simp [hs', hc]

/-- A check decides whether a text is canonical. -/
theorem runOn_check (hs : s.ast = false) (hs' : s.check) :
    (runOn s text).code = 0 ↔ s.entry.canonicalize s.empty text = .ok text := by
  refine ⟨fun h => ?_, fun h => by rw [runOn_check_self hs h]; rfl⟩
  rcases hc : s.entry.canonicalize s.empty text with err | c
  · rw [runOn_of_not_ast hs, hc] at h
    cases h
  · by_cases hne : c = text
    · rw [hne]
    · rw [runOn_check_ne hs hs' hc hne] at h
      cases h

/-- Without a check no more of a text matters than its tree. -/
theorem runOn_congr {e : Entry} {ast : Bool} {empty : EmptyCall} {o o' : Option String}
    {text text' : String} (h : ∀ t, e.parse text = .ok t ↔ e.parse text' = .ok t) :
    (runOn ⟨e, ast, false, empty, o⟩ text).code = (runOn ⟨e, ast, false, empty, o'⟩ text').code ∧
      (runOn ⟨e, ast, false, empty, o⟩ text).stdout =
        (runOn ⟨e, ast, false, empty, o'⟩ text').stdout := by
  simp only [runOn]
  rcases ht : e.parse text with err | t
  · rcases ht' : e.parse text' with err' | t'
    · exact ⟨rfl, rfl⟩
    · rw [(h t').2 ht'] at ht
      cases ht
  · rw [(h t).1 ht]
    exact ⟨rfl, rfl⟩

end RunOn

/-! ## Runs from a command line -/

/-- What a run is to do with a text. -/
inductive Mode where
  | write
  | document
  | check
deriving DecidableEq, Repr

/-- A text and the way it is given. -/
inductive Given where
  | argument (text : String)
  | input (text : String)

/-- The part of a command line that asks for `m`. -/
def Mode.words : Mode → List String
  | write => []
  | document => ["--ast"]
  | check => ["--check"]

/-- The part of a command line that asks for `empty`. -/
def emptyCallWords : EmptyCall → List String
  | .tight => []
  | .spaced => ["--spaced-empty-calls"]

namespace Given

/-- The text with what stands behind it on standard input. -/
def text : Given → String
  | argument text => text
  | input text => text

/-- The part of a command line that gives the text. -/
def words : Given → List String
  | argument text => ["--", text]
  | input _ => []

/-- The text, if it stands on the command line. -/
def argument? : Given → Option String
  | argument text => some text
  | input _ => none

/-- The bytes that are there to be read. -/
def stdin : Given → ByteArray
  | argument _ => .empty
  | input text => text.toUTF8

/-- The text that a run looks at. -/
def seen : Given → String
  | argument text => text
  | input text => String.ofList (withoutLineEnds text.toList)

end Given

/-- What comes of a command line that asks for a run. -/
def outcome? (args : List String) (stdin : ByteArray) : Option Report :=
  match Request.ofArgs args with
  | .run s => some (run s stdin)
  | .help | .misuse => none

/-- The run of the tool on a given text. -/
def Given.run? (g : Given) (e : Entry) (empty : EmptyCall) (m : Mode) : Option Report :=
  outcome? ("--rule" :: e.name :: (m.words ++ emptyCallWords empty ++ g.words)) g.stdin

section CommandLine

variable {e : Entry} {empty : EmptyCall} {c : String}

theorem fromUTF8?_toUTF8 (text : String) : String.fromUTF8? text.toUTF8 = some text := by
  unfold String.fromUTF8?
  rw [String.toUTF8_eq_toByteArray, dif_pos text.isValidUTF8]
  rfl

/-- The settings that the command line stands for. -/
def Given.settings (g : Given) (e : Entry) (empty : EmptyCall) (m : Mode) : Settings :=
  ⟨e, m = .document, m = .check, empty, g.argument?⟩

/-- The words of a run ask for the settings that they are made from. -/
theorem ofArgs_words (g : Given) (e : Entry) (empty : EmptyCall) (m : Mode) :
    Request.ofArgs ("--rule" :: e.name :: (m.words ++ emptyCallWords empty ++ g.words)) =
      .run (g.settings e empty m) := by
  cases g <;> cases e <;> cases m <;> cases empty <;> rfl

/-- A run is what the tool does with the text that it sees, once its words are read. -/
theorem run?_eq_runOn (g : Given) (e : Entry) (empty : EmptyCall) (m : Mode) :
    g.run? e empty m = some (runOn (g.settings e empty m) g.seen) := by
  rw [Given.run?, outcome?, ofArgs_words]
  cases g with
  | argument text => rfl
  | input text =>
    simp only [run, Given.settings, runOnInput, Given.stdin, fromUTF8?_toUTF8]
    rfl

theorem seen_input_append {b : List Char} (hb : b.all isLineEnd) (text : String) :
    (Given.input (text ++ String.ofList b)).seen = (Given.input text).seen := by
  simp only [Given.seen, String.toList_append, String.toList_ofList, withoutLineEnds_append hb]

/-- No line ends are lost from a canonical text. -/
theorem seen_of_canonicalize (h : e.canonicalize empty c = .ok c) {g : Given} (hg : g.text = c) :
    g.seen = c := by
  subst hg
  cases g with
  | argument text => rfl
  | input text =>
    have ht : withoutLineEnds text.toList = text.toList :=
      withoutLineEnds_of_endsInToken (Entry.endsInToken_of_canonicalize h)
    rw [Given.seen, ht, String.ofList_toList]
    rfl

/-- What is lost on the way to the parser are blanks at the end. -/
theorem parse_seen {g : Given} {t : e.Tree} :
    e.parse g.seen = .ok t ↔ e.parse g.text = .ok t := by
  cases g with
  | argument text => rfl
  | input text => exact Entry.parse_withoutLineEnds

theorem canonicalize_seen {g : Given} :
    e.canonicalize empty g.seen = .ok c ↔ e.canonicalize empty g.text = .ok c := by
  simp only [Entry.canonicalize_eq_ok, parse_seen]

theorem run?_write {g : Given} (h : e.canonicalize empty g.text = .ok c) :
    g.run? e empty .write = some (.success c) := by
  rw [run?_eq_runOn, runOn_write rfl rfl (canonicalize_seen.2 h)]

theorem run?_check_of_canonicalize (h : e.canonicalize empty c = .ok c) {g : Given}
    (hg : g.text = c) : g.run? e empty .check = some (.success c) := by
  rw [run?_eq_runOn, seen_of_canonicalize h hg, runOn_check_self rfl h]

/-- The line end that is printed behind a canonical text, and any others, are not looked at. -/
theorem run?_check_lineEnds (h : e.canonicalize empty c = .ok c) {b : List Char}
    (hb : b.all isLineEnd) :
    (Given.input (c ++ "\n" ++ String.ofList b)).run? e empty .check = some (.success c) := by
  have hn : ['\n'].all isLineEnd := rfl
  have hs : (Given.input (c ++ "\n" ++ String.ofList b)).seen = c := by
    rw [seen_input_append hb]
    exact (seen_input_append hn c).trans (seen_of_canonicalize h rfl)
  rw [run?_eq_runOn, hs, runOn_check_self rfl h]

/-- What the tool prints passes a check and is printed again; all else fails the check, and then the
message says what would pass. Line ends behind standard input are of no account. -/
theorem runs_fixed_point (e : Entry) (empty : EmptyCall) :
    (∀ (g : Given) (c : String), e.canonicalize empty g.text = .ok c →
      g.run? e empty .write = some ⟨0, c ++ "\n", [], ""⟩ ∧
      ∀ b : List Char, b.all isLineEnd →
        (Given.input (c ++ "\n" ++ String.ofList b)).run? e empty .check =
          some ⟨0, c ++ "\n", [], ""⟩) ∧
    (∀ g : Given, ∃ r, g.run? e empty .check = some r ∧
      (r.code = 0 ↔ e.canonicalize empty g.seen = .ok g.seen) ∧
      ∀ c, e.canonicalize empty g.seen = .ok c → c ≠ g.seen →
        r.stdout = "" ∧ r.stderr = "Error: not canonical; expected: " ++ c ++ "\n" ∧
        ∀ g' : Given, g'.text = c → ∃ r', g'.run? e empty .check = some r' ∧ r'.code = 0) ∧
    ∀ m : Mode, m ≠ .check → ∀ (text : String) (b : List Char), b.all isLineEnd → ∃ r r',
      (Given.argument text).run? e empty m = some r ∧
      (Given.input (text ++ String.ofList b)).run? e empty m = some r' ∧
      r.code = r'.code ∧ r.stdout = r'.stdout := by
  refine ⟨fun g c h => ?_, fun g => ?_, fun m hm text b hb => ?_⟩
  · exact ⟨run?_write h, fun b hb => run?_check_lineEnds (Entry.canonicalize_self h) hb⟩
  · refine ⟨_, run?_eq_runOn g e empty .check, runOn_check rfl rfl, fun c h hc => ?_⟩
    rw [runOn_check_ne rfl rfl h hc]
    refine ⟨rfl, ?_, fun g' hg' => ?_⟩
    · have he : "Error: " ++ "not canonical; expected: " = "Error: not canonical; expected: " := rfl
      rw [Report.failure, ← String.append_assoc, he]
    · exact ⟨_, run?_check_of_canonicalize (Entry.canonicalize_self h) hg', rfl⟩
  · -- Line ends are taken from standard input before the tool runs.
    refine ⟨_, _, run?_eq_runOn _ e empty m, run?_eq_runOn _ e empty m, ?_⟩
    have hc : decide (m = .check) = false := decide_eq_false hm
    rw [seen_input_append hb]
    simp only [Given.settings, hc]
    exact runOn_congr fun t => Entry.parse_withoutLineEnds.symm

example : (Given.input "f( )\r\n").run? .source .tight .check =
    some ⟨1, "", ["input differs from canonical form"],
      "Error: not canonical; expected: f()\n"⟩ := rfl

end CommandLine

end Tool

end Pipeline
