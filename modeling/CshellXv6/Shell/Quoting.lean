/-
Quoting.

A word can be written in single quotes, in double quotes or with a backslash
before every character, so that the lexer gives it back whatever it contains
(`lexer_quote`).
-/
import CshellXv6.Shell.Tokens

namespace Cshell

/-- The ways to write a word. -/
inductive Quote
  | single
  | double
  | escape
  deriving DecidableEq, Repr

/-- A word as it is written: a single quote inside single quotes is written
`'\''`, and inside double quotes a double quote and a backslash get a backslash
in front. -/
def Quote.write : Quote → Str → Str
  | .single, w =>
    '\'' :: (w.flatMap fun c => if c = '\'' then ['\'', '\\', '\'', '\''] else [c]) ++ ['\'']
  | .double, w =>
    '"' :: (w.flatMap fun c => if c = '"' ∨ c = '\\' then ['\\', c] else [c]) ++ ['"']
  | .escape, w => w.flatMap fun c => ['\\', c]

/-- The words of a line, joined with single blanks. -/
def quoteLine (ws : List (Quote × Str)) : Str :=
  [' '].intercalate (ws.map fun x => x.1.write x.2)

/-! ### The parts of a quoted word -/

/-- The stretches of a single-quoted word, `s` read so far. -/
def singleParts (s : Str) : Str → List Part
  | [] => [.single s]
  | c :: w =>
    if c = '\'' then .single s :: .escape '\'' :: singleParts [] w else singleParts (s ++ [c]) w

theorem singleParts_ok {s : Str} (hs : '\'' ∉ s) (w : Str) : ∀ p ∈ singleParts s w, p.Ok := by
  induction w generalizing s with
  | nil => simpa [singleParts, Part.Ok] using hs
  | cons c w ih =>
    rw [singleParts]
    split
    · simpa [Part.Ok, hs] using ih (s := []) (by simp)
    · rename_i hc
      exact ih (by simpa [hs] using Ne.symm hc)

theorem singleParts_source (s w : Str) : source (singleParts s w) = '\'' ::
    (s ++ w.flatMap fun c => if c = '\'' then ['\'', '\\', '\'', '\''] else [c]) ++ ['\''] := by
  induction w generalizing s with
  | nil => simp [singleParts, source, Part.source]
  | cons c w ih =>
    rw [singleParts]
    split
    · rename_i hc
      have ih := ih []
      simp only [source, List.flatMap_cons, Part.source, hc] at ih ⊢
      rw [ih]
      simp
    · rename_i hc
      rw [ih]
      simp [hc]

theorem singleParts_text (s w : Str) : text (singleParts s w) = s ++ w := by
  induction w generalizing s with
  | nil => simp [singleParts, text, Part.text]
  | cons c w ih =>
    rw [singleParts]
    split
    · rename_i hc
      have ih := ih []
      simp only [text, List.flatMap_cons, Part.text, hc] at ih ⊢
      rw [ih]
      simp
    · rw [ih]
      simp

/-- The characters of a double-quoted word. -/
def doubleParts (w : Str) : List DPart :=
  w.map fun c => if c = '"' ∨ c = '\\' then .escape c else .plain c

theorem doubleParts_ok (w : Str) : ∀ d ∈ doubleParts w, d.Ok := by
  intro d hd
  obtain ⟨c, -, rfl⟩ := List.mem_map.mp hd
  split
  · trivial
  · rename_i hc
    push Not at hc
    exact hc

theorem doubleParts_source (w : Str) : (doubleParts w).flatMap DPart.source =
    w.flatMap fun c => if c = '"' ∨ c = '\\' then ['\\', c] else [c] := by
  rw [doubleParts, List.flatMap_map]
  congr 1
  funext c
  split <;> rfl

theorem doubleParts_text (w : Str) : (doubleParts w).flatMap DPart.text = w := by
  induction w with
  | nil => rfl
  | cons c w ih =>
    have hc : (if c = '"' ∨ c = '\\' then DPart.escape c else .plain c).text = [c] := by
      split
      · rename_i h
        exact if_pos h
      · rfl
    simp only [doubleParts, List.map_cons, List.flatMap_cons, hc] at ih ⊢
    rw [ih]
    rfl

/-- **A quoted word is made of parts that spell it.** -/
theorem Quote.write_parts (k : Quote) (w : Str) (h : k = .escape → w ≠ []) :
    ∃ ps : List Part, ps ≠ [] ∧ (∀ p ∈ ps, p.Ok) ∧ source ps = k.write w ∧ text ps = w := by
  cases k with
  | single =>
    refine ⟨singleParts [] w, ?_, singleParts_ok (by simp) w, ?_, singleParts_text [] w⟩
    · intro hn
      have := singleParts_source [] w
      rw [hn] at this
      cases this
    · rw [singleParts_source, List.nil_append]
      rfl
  | double =>
    refine ⟨[.double (doubleParts w)], by simp, ?_, ?_, ?_⟩
    · simpa [Part.Ok] using doubleParts_ok w
    · simp [source, Part.source, doubleParts_source, Quote.write]
    · simp [text, Part.text, doubleParts_text]
  | escape =>
    refine ⟨w.map .escape, by simpa using h rfl, ?_, ?_, ?_⟩
    · intro p hp
      obtain ⟨c, -, rfl⟩ := List.mem_map.mp hp
      trivial
    · rw [source, List.flatMap_map]
      rfl
    · rw [text, List.flatMap_map]
      exact List.flatMap_singleton' w

/-! ### Lines -/

/-- **Quoting round trip**: the lexer gives back the words of the line, all of
them as words. -/
theorem lexer_quote {ws : List (Quote × Str)} (h : ∀ x ∈ ws, x.1 = .escape → x.2 ≠ []) :
    lexer (quoteLine ws) = some (ws.map fun x => ⟨x.2, .ordinary⟩) := by
  unfold lexer quoteLine
  induction ws with
  | nil => simp [lexLoop]
  | cons x ws ih =>
    obtain ⟨ps, hne, hok, hsrc, htext⟩ := x.1.write_parts x.2 (h x (by simp))
    have ih := ih fun y hy => h y (by simp [hy])
    -- the word ends at the end of the line or at the blank, which the loop skips
    cases ws with
    | nil =>
      have hl := lexLoop_source hne hok (l := []) (by simp [Ends])
      rw [List.append_nil, hsrc, htext] at hl
      simpa [lexLoop] using hl
    | cons y ws =>
      have hl := lexLoop_source hne hok
        (l := ' ' :: [' '].intercalate ((y :: ws).map fun x => x.1.write x.2)) (by simp [Ends, isBlank])
      rw [hsrc, htext, List.tail_cons, ih] at hl
      simpa using hl

/-- `'it'\''s' "a \"|" "" \;` and a line break. -/
theorem lexer_quote_mixed : lexer (quoteLine [(.single, ['i', 't', '\'', 's']),
      (.double, ['a', ' ', '"', '|']), (.double, []), (.escape, [';', '\n'])]) =
    some [⟨['i', 't', '\'', 's'], .ordinary⟩, ⟨['a', ' ', '"', '|'], .ordinary⟩, ⟨[], .ordinary⟩,
      ⟨[';', '\n'], .ordinary⟩] :=
  lexer_quote (by decide)

end Cshell
