import Pipeline.Proofs.Lexemes
import Pipeline.Proofs.Split

/-!
# Canonicalizing without a tree

For a text that can be read, canonicalizing is the same as splitting the text into tokens and
writing these in one pass (`canonicalize_eq_respaced`). The tokens of a well-formed tree are names,
literals and marks as the grammar has them (`tokens_isLexeme`), and none of them is touched.
-/

namespace Pipeline

open Token

namespace Entry

/-- Only blanks are added to or taken from a text, and never inside a token. -/
theorem canonicalize_eq_respaced {e : Entry} {text : String} {t : e.Tree}
    (h : e.parse text = .ok t) (empty : EmptyCall) :
    e.canonicalize empty text =
      .ok (String.ofList (respaced e.pads empty (split text.toList))) ∧
    split text.toList = e.tokens t ∧ (∀ k ∈ split text.toList, k.IsLexeme) ∧
    LaidOut text.toList (split text.toList) ∧
    split (respaced e.pads empty (split text.toList)) = split text.toList ∧
    (e.canonicalize empty text = .ok text ↔
      respaced e.pads empty (split text.toList) = text.toList) := by
  obtain ⟨ht, hs⟩ := parse_eq_ok_iff_split.1 h
  have hc : e.canonicalize empty text =
      .ok (String.ofList (respaced e.pads empty (split text.toList))) := by
    rw [canonicalize_of_parse h, write, chars_eq_respaced, hs]
  refine ⟨hc, hs, ?_, laidOut_split _, ?_, ?_⟩
  · rw [hs]
    exact tokens_isLexeme e ht
  · have hw := parse_eq_ok_iff_split.1 (parse_write ht empty)
    rw [write, String.toList_ofList, chars_eq_respaced] at hw
    rw [hs, hw.2]
  · rw [hc, Except.ok.injEq, ← String.toList_inj, String.toList_ofList]

/-- A quoted blank is kept, the others are made anew. -/
theorem canonicalize_eq_respaced_failover :
    sink.parse "<f( g(1 ),k=\" \" )\n?[a,h()] >" = .ok (.failover
      (.call ⟨"f", [.positional (.call ⟨"g", [.positional (.literal (.int "1" 1))]⟩),
        .keyword "k" (.literal (.string "\" \""))]⟩)
      (.fanOut [.name "a", .call ⟨"h", []⟩])) ∧
    sink.canonicalize .spaced "<f( g(1 ),k=\" \" )\n?[a,h()] >" =
      .ok "< f( g(1), k=\" \" ) ? [ a, h( ) ] >" := by
  have h : sink.parse "<f( g(1 ),k=\" \" )\n?[a,h()] >" = .ok (.failover
      (.call ⟨"f", [.positional (.call ⟨"g", [.positional (.literal (.int "1" 1))]⟩),
        .keyword "k" (.literal (.string "\" \""))]⟩)
      (.fanOut [.name "a", .call ⟨"h", []⟩])) := by rfl
  refine ⟨h, ?_⟩
  rw [(canonicalize_eq_respaced h .spaced).1]
  rfl

end Entry

end Pipeline
