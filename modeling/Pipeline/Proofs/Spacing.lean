import Pipeline.Proofs.Layout
import Pipeline.Token.Spacing

/-!
# Canonical text from tokens alone

The canonical text of a tree is what one pass over its tokens writes (`chars_eq_respaced`). Seen
from the pass, a part of a tree looks like a single word: it starts and ends in a token that asks
for no blanks of its own, and it leaves the number of open parentheses as it was (`Renders`).
Whether the calls in it are padded is then decided by that number.
-/

namespace Pipeline

namespace Token

/-- The tokens that a part of a tree can start with. -/
def startsPart : Token → Bool
  | word _ => true
  | mark c => c ∈ ['{', '[', '<']
  | arrow => false

/-- The tokens that a part of a tree can end with. -/
def endsPart : Token → Bool
  | word _ => true
  | mark c => c ∈ [')', '}', ']', '>']
  | arrow => false

/-- One blank or none. -/
def blankIf (b : Bool) : List Char :=
  if b then [' '] else []

section Pass

variable (outer : Bool) (empty : EmptyCall)

/-- The tokens `ts`, the first without a blank before it, where `depth` parentheses are open. -/
def respacedFrom (depth : Nat) : List Token → List Char
  | [] => []
  | t :: ts => t.chars ++ respacedAfter outer empty t (depthAfter depth t) ts

/-- In a pass the tokens `ts` come out as `cs` where `depth` parentheses are open, and what follows
is written as behind `last`. -/
structure Renders (depth : Nat) (ts : List Token) (cs : List Char) (last : Token) : Prop where
  starts : ∃ t us, ts = t :: us ∧ startsPart t
  ends : endsPart last
  writes : ∀ us, respacedFrom outer empty depth (ts ++ us) =
    cs ++ respacedAfter outer empty last depth us

variable {outer empty} {depth : Nat} {t u l m : Token} {ts us : List Token} {cs ds : List Char}

theorem respaced_eq : respaced outer empty ts = respacedFrom outer empty 0 ts := by
  cases ts <;> rfl

/-- At the top level the tokens are respaced to the text that they render. -/
theorem Renders.respaced_eq (h : Renders outer empty 0 ts cs l) : respaced outer empty ts = cs := by
  have h' := h.writes []
  rw [List.append_nil] at h'
  rw [Token.respaced_eq, h']
  exact List.append_nil cs

theorem startsPart_cases (h : startsPart t) : blankBefore t = false ∧ t ≠ mark ')' := by
  rcases t with w | c | _
  · exact ⟨rfl, nofun⟩
  · simp only [startsPart, List.mem_cons, List.not_mem_nil, or_false, decide_eq_true_eq] at h
    rcases h with rfl | rfl | rfl <;> exact ⟨rfl, by decide⟩
  · cases h

theorem endsPart_cases (h : endsPart t) : blankAfter t = false ∧ t ≠ mark '(' := by
  rcases t with w | c | _
  · exact ⟨rfl, nofun⟩
  · simp only [endsPart, List.mem_cons, List.not_mem_nil, or_false, decide_eq_true_eq] at h
    rcases h with rfl | rfl | rfl | rfl <;> exact ⟨rfl, by decide⟩
  · cases h

/-- In front of a part there is a blank if the token before it asks for one. -/
theorem gap_of_startsPart (hu : startsPart u) (ht : t ≠ mark ')') :
    gap outer empty depth t u =
      blankIf (blankAfter t || (outer && depth == 1 && t = mark '(')) := by
  obtain ⟨hb, hc⟩ := startsPart_cases hu
  simp [gap, blankIf, hb, hc, ht]

theorem gap_of_endsPart (ht : endsPart t) (hu : u ≠ mark '{') :
    gap outer empty depth t u =
      blankIf (blankBefore u || (outer && depth == 1 && u = mark ')')) := by
  obtain ⟨hb, hc⟩ := endsPart_cases ht
  simp [gap, blankIf, hb, hc, hu]

theorem Renders.after (h : Renders outer empty depth ts cs l) (ht : t ≠ mark ')')
    (us : List Token) : respacedAfter outer empty t depth (ts ++ us) =
      blankIf (blankAfter t || (outer && depth == 1 && t = mark '(')) ++
        (cs ++ respacedAfter outer empty l depth us) := by
  obtain ⟨u, ts, rfl, hu⟩ := h.starts
  rw [← h.writes us, List.cons_append, respacedAfter, gap_of_startsPart hu ht, List.append_assoc]
  rfl

theorem respacedAfter_endsPart (ht : endsPart t) (hu : u ≠ mark '{') (us : List Token) :
    respacedAfter outer empty t depth (u :: us) =
      blankIf (blankBefore u || (outer && depth == 1 && u = mark ')')) ++
        (u.chars ++ respacedAfter outer empty u (depthAfter depth u) us) := by
  rw [respacedAfter, gap_of_endsPart ht hu, List.append_assoc]

/-! ## Parts made of parts -/

theorem renders_word (w : List Char) : Renders outer empty depth [word w] w (word w) :=
  ⟨⟨word w, [], rfl, rfl⟩, rfl, fun _ => rfl⟩

/-- Two parts with a token between them that is no bracket. -/
theorem Renders.joined (h : Renders outer empty depth ts cs l)
    (h' : Renders outer empty depth us ds m) (ht : t ∈ [mark ',', mark '=', mark '?', arrow]) :
    Renders outer empty depth (ts ++ t :: us)
      (cs ++ (blankIf (blankBefore t) ++ (t.chars ++ (blankIf (blankAfter t) ++ ds)))) m := by
  obtain ⟨u, ts', rfl, hu⟩ := h.starts
  refine ⟨⟨u, _, rfl, hu⟩, h'.ends, fun vs => ?_⟩
  have ht' : t ≠ mark '(' ∧ t ≠ mark ')' ∧ t ≠ mark '{' := by
    simp only [List.mem_cons, List.not_mem_nil, or_false] at ht
    rcases ht with rfl | rfl | rfl | rfl <;> decide
  have hd : depthAfter depth t = depth := by
    rw [depthAfter, if_neg ht'.1, if_neg ht'.2.1]
  rw [List.append_assoc, h.writes, List.cons_append, respacedAfter_endsPart h.ends ht'.2.2, hd,
    h'.after ht'.2.1]
  simp [ht']

/-- A part in a pair of brackets that are not parentheses. -/
theorem Renders.bracketed {o c : Char} (h : Renders outer empty depth ts cs l)
    (hoc : (o, c) ∈ [('{', '}'), ('[', ']'), ('<', '>')]) :
    Renders outer empty depth (mark o :: (ts ++ [mark c])) (o :: ' ' :: (cs ++ [' ', c]))
      (mark c) := by
  have ho : startsPart (mark o) ∧ mark o ≠ mark '(' ∧ mark o ≠ mark ')' ∧ blankAfter (mark o) := by
    simp only [List.mem_cons, Prod.mk.injEq, List.not_mem_nil, or_false] at hoc
    rcases hoc with ⟨rfl, rfl⟩ | ⟨rfl, rfl⟩ | ⟨rfl, rfl⟩ <;> decide
  have hc : endsPart (mark c) ∧ mark c ≠ mark '(' ∧ mark c ≠ mark ')' ∧ mark c ≠ mark '{' ∧
      blankBefore (mark c) := by
    simp only [List.mem_cons, Prod.mk.injEq, List.not_mem_nil, or_false] at hoc
    rcases hoc with ⟨rfl, rfl⟩ | ⟨rfl, rfl⟩ | ⟨rfl, rfl⟩ <;> decide
  refine ⟨⟨mark o, _, rfl, ho.1⟩, hc.1, fun us => ?_⟩
  have hdo : depthAfter depth (mark o) = depth := by
    rw [depthAfter, if_neg ho.2.1, if_neg ho.2.2.1]
  have hdc : depthAfter depth (mark c) = depth := by
    rw [depthAfter, if_neg hc.2.1, if_neg hc.2.2.1]
  rw [List.cons_append, respacedFrom, hdo, List.append_assoc, h.after ho.2.2.1,
    List.singleton_append, respacedAfter_endsPart h.ends hc.2.2.2.1, hdc]
  simp [ho, hc, blankIf, chars]

/-- A call and its body. -/
theorem Renders.block (h : Renders outer empty depth ts cs (mark ')'))
    (h' : Renders outer empty depth us ds m) :
    Renders outer empty depth (ts ++ mark '{' :: (us ++ [mark '}']))
      (cs ++ ' ' :: '{' :: ' ' :: (ds ++ [' ', '}'])) (mark '}') := by
  obtain ⟨u, ts', rfl, hu⟩ := h.starts
  refine ⟨⟨u, _, rfl, hu⟩, rfl, fun vs => ?_⟩
  have hg : gap outer empty depth (mark ')') (mark '{') = [' '] := by
    simp [gap]
  have hb := (h'.bracketed (o := '{') (c := '}') (by simp)).writes vs
  rw [List.cons_append, respacedFrom] at hb
  rw [List.append_assoc, h.writes, List.cons_append, respacedAfter, hg, List.append_assoc, hb]
  simp

/-- The calls that are not inside another one are the ones that are padded. -/
theorem Renders.parenthesized (n : List Char) (h : Renders outer empty (depth + 1) ts cs l) :
    Renders outer empty depth (word n :: mark '(' :: (ts ++ [mark ')']))
      (n ++ '(' :: (blankIf (outer && depth == 0) ++ (cs ++ (blankIf (outer && depth == 0) ++
        [')'])))) (mark ')') := by
  refine ⟨⟨word n, _, rfl, rfl⟩, rfl, fun us => ?_⟩
  have hg : gap outer empty depth (word n) (mark '(') = [] := by
    simp [gap, blankAfter, blankBefore]
  rw [List.cons_append, List.cons_append, respacedFrom, respacedAfter, depthAfter, if_neg nofun,
    if_neg nofun, hg, depthAfter, if_pos rfl, List.append_assoc ts, h.after (t := mark '(') nofun,
    List.singleton_append, respacedAfter_endsPart (u := mark ')') h.ends nofun]
  simp [blankIf, chars, blankAfter, blankBefore, depthAfter]

/-- The option on empty calls matters for a padded call without arguments only. -/
theorem renders_parens (n : List Char) :
    Renders outer empty depth [word n, mark '(', mark ')']
      (n ++ '(' :: (blankIf (outer && depth == 0 && empty = .spaced) ++ [')'])) (mark ')') := by
  refine ⟨⟨word n, _, rfl, rfl⟩, rfl, fun us => ?_⟩
  simp [respacedFrom, respacedAfter, gap, depthAfter, blankAfter, blankBefore, chars, blankIf]

theorem Renders.listed {tss : List (List Token)} {css : List (List Char)}
    (h : ∃ l, Renders outer empty depth ts cs l)
    (h' : List.Forall₂ (fun ts cs => ∃ l, Renders outer empty depth ts cs l) tss css) :
    ∃ l, Renders outer empty depth (separated (ts :: tss)) (commaSeparated (cs :: css)) l := by
  induction h' generalizing ts cs with
  | nil => simpa [separated, commaSeparated] using h
  | cons h₁ _ ih =>
    obtain ⟨l, h⟩ := h
    obtain ⟨m, h'⟩ := ih h₁
    exact ⟨m, h.joined (t := mark ',') h' (by simp)⟩

end Pass

end Token

/-! ## Trees -/

open Token

section Values

variable {outer : Bool} {empty : EmptyCall}

mutual

/-- A value is never padded, so its text is a rendering at any depth but the outermost of a padded
list. -/
theorem value_renders : ∀ (v : Value) {depth : Nat}, (outer && depth == 0) = false →
    ∃ l, Renders outer empty depth v.tokens v.chars l
  | .literal l, _, _ => ⟨_, renders_word l.text.toList⟩
  | .call c, _, hd => ⟨_, call_renders c hd⟩

theorem argument_renders : ∀ (a : Argument) {depth : Nat}, (outer && depth == 0) = false →
    ∃ l, Renders outer empty depth a.tokens a.chars l
  | .positional v, _, hd => value_renders v hd
  | .keyword n v, _, hd => by
    obtain ⟨l, h⟩ := value_renders v hd
    exact ⟨l, (renders_word n.toList).joined (t := mark '=') h (by simp)⟩

theorem call_renders : ∀ (c : Call) {depth : Nat}, (outer && depth == 0) = false →
    Renders outer empty depth c.tokens c.nested (mark ')')
  | ⟨n, []⟩, depth, hd => by
    have h : Renders outer empty depth _ _ _ := renders_parens n.toList
    rw [hd] at h
    exact h
  | ⟨n, a :: as⟩, depth, hd => by
    obtain ⟨l, h⟩ := Renders.listed (argument_renders a (by simp)) (arguments_render as depth)
    have h' := h.parenthesized n.toList
    rw [hd] at h'
    exact h'

theorem arguments_render : ∀ (as : List Argument) (depth : Nat),
    List.Forall₂ (fun ts cs => ∃ l, Renders outer empty (depth + 1) ts cs l)
      (Argument.allTokens as) (Argument.allChars as)
  | [], _ => .nil
  | a :: as, depth => .cons (argument_renders a (by simp)) (arguments_render as depth)

end

end Values

section Sinks

variable {empty : EmptyCall}

theorem allChars_eq_map (as : List Argument) : Argument.allChars as = as.map Argument.chars := by
  induction as with
  | nil => rfl
  | cons a as ih => rw [Argument.allChars, List.map_cons, ih]

/-- An outer call is padded, and the calls in its arguments are not. -/
theorem padded_renders : ∀ c : Call, Renders true empty 0 c.tokens (c.padded empty) (mark ')')
  | ⟨n, []⟩ => by
    have h : Renders true empty 0 _ _ _ := renders_parens n.toList
    cases empty <;> exact h
  | ⟨n, a :: as⟩ => by
    have h : ∃ l, Renders true empty (0 + 1) _ _ l :=
      Renders.listed (argument_renders a rfl) (arguments_render as 0)
    obtain ⟨l, h⟩ := h
    have h' := h.parenthesized n.toList
    rw [allChars_eq_map as] at h'
    simpa [Call.tokens, Call.padded, Argument.allTokens, blankIf] using h'

theorem source_renders : ∀ d : Source, ∃ l, Renders true empty 0 d.tokens (d.chars empty) l
  | .name n => ⟨_, renders_word n.toList⟩
  | .call c => ⟨_, padded_renders c⟩

mutual

theorem sink_renders : ∀ t : Sink, ∃ l, Renders true empty 0 t.tokens (t.chars empty) l
  | .name n => ⟨_, renders_word n.toList⟩
  | .call c => ⟨_, padded_renders c⟩
  | .decorated d t => by
    obtain ⟨l, h⟩ := source_renders d
    obtain ⟨m, h'⟩ := sink_renders t
    have hb := (h.joined (t := arrow) h' (by simp)).bracketed (o := '{') (c := '}') (by simp)
    refine ⟨mark '}', ?_⟩
    simpa [Sink.tokens, Sink.chars, chars, blankIf, blankBefore, blankAfter] using hb
  | .fanOut [] => ⟨mark ']', ⟨_, _, rfl, rfl⟩, rfl, fun _ => rfl⟩
  | .fanOut (t :: ts) => by
    obtain ⟨l, h⟩ := Renders.listed (sink_renders t) (sinks_render ts)
    exact ⟨_, h.bracketed (o := '[') (c := ']') (by simp)⟩
  | .failover t u => by
    obtain ⟨l, h⟩ := sink_renders t
    obtain ⟨m, h'⟩ := sink_renders u
    have hb := (h.joined (t := mark '?') h' (by simp)).bracketed (o := '<') (c := '>') (by simp)
    refine ⟨mark '>', ?_⟩
    simpa [Sink.tokens, Sink.chars, chars, blankIf, blankBefore, blankAfter] using hb
  | .block c t => by
    obtain ⟨l, h⟩ := sink_renders t
    exact ⟨_, (padded_renders c).block h⟩

theorem sinks_render : ∀ ts : List Sink,
    List.Forall₂ (fun us cs => ∃ l, Renders true empty 0 us cs l) (Sink.allTokens ts)
      (Sink.allChars empty ts)
  | [] => .nil
  | t :: ts => .cons (sink_renders t) (sinks_render ts)

end

end Sinks

namespace Entry

/-- What a pass over its tokens writes for a tree, well formed or not, is what is written from the
tree. -/
theorem chars_eq_respaced {empty : EmptyCall} : ∀ (e : Entry) (t : e.Tree),
    e.chars empty t = respaced e.pads empty (e.tokens t)
  | literal, l => by
    have h : Renders false empty 0 l.tokens l.chars _ := renders_word l.text.toList
    exact h.respaced_eq.symm
  | argument, a => by
    have h : ∃ l, Renders false empty 0 a.tokens a.chars l := argument_renders a rfl
    obtain ⟨l, h⟩ := h
    exact h.respaced_eq.symm
  | source, d => by
    obtain ⟨l, h⟩ := source_renders d
    exact h.respaced_eq.symm
  | sink, t => by
    obtain ⟨l, h⟩ := sink_renders t
    exact h.respaced_eq.symm

end Entry

/-! ## Blanks only -/

namespace Token

variable {outer : Bool} {empty : EmptyCall}

theorem blanks_gap (depth : Nat) (t u : Token) (s : List Char) :
    Blanks (gap outer empty depth t u ++ s) s := by
  refine ⟨gap outer empty depth t u, ?_, rfl⟩
  simp only [gap]
  split_ifs <;> rfl

theorem laidOut_respacedAfter : ∀ (ts : List Token) (t : Token) (depth : Nat),
    LaidOut (respacedAfter outer empty t depth ts) ts
  | [], _, _ => ⟨[], .nil, .refl []⟩
  | u :: us, t, depth => by
    rw [respacedAfter, List.append_assoc]
    exact .behind_blanks (blanks_gap depth t u _) (.cons (laidOut_respacedAfter us u _))

/-- Respacing only chooses the blanks of a layout. -/
theorem laidOut_respaced : ∀ ts : List Token, LaidOut (respaced outer empty ts) ts
  | [] => ⟨[], .nil, .refl []⟩
  | t :: ts => .cons (laidOut_respacedAfter ts t _)

end Token

/-- The text of a tree is a layout of its tokens, so it can be split again. -/
theorem Entry.laidOut_chars (e : Entry) (empty : EmptyCall) (t : e.Tree) :
    LaidOut (e.chars empty t) (e.tokens t) := by
  rw [chars_eq_respaced]
  exact laidOut_respaced _

end Pipeline
