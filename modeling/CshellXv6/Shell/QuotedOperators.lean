/-
Quoted operators.

The parser looks at the type of a token, so a quoted `|`, `;` or `&` is a word
like any other.  `ext_in` and `ext_out` look at texts, so a quoted `<`, `>` or
`>>` is an operator to them.

A word is plain at its place in a line if the commands of the line are the same
for every word that could stand there, up to that one text (`PlainWord`).
`plain_word_iff` says when a quoted operator is.
-/
import CshellXv6.Shell.Commands
import CshellXv6.Shell.Quoting
import CshellXv6.Shell.RedirectHole

namespace Cshell

/-! ### The command of a word -/

/-- The arguments of the command being read after `ts`, with `cur` read before. -/
def argsBefore (cur : List Str) : List Token → List Str
  | [] => cur
  | t :: ts => if isSeparator t then argsBefore [] ts else argsBefore (cur ++ [t.value]) ts

/-- The arguments `ts` adds to the command being read. -/
def argsAfter : List Token → List Str
  | [] => []
  | t :: ts => if isSeparator t then [] else t.value :: argsAfter ts

/-- What follows closes the command or is an error, in the same way for every command
that is not empty. -/
theorem parserLoop_after (post : List Token) :
    (∀ cur, cur ≠ [] → parserLoop cur post = none) ∨
    ∃ ns p s b, ∀ cur, (hc : cur ++ argsAfter post ≠ []) → cur ≠ [] →
      parserLoop cur post = some (⟨cur ++ argsAfter post, hc, p, s, b⟩ :: ns) := by
  induction post with
  | nil =>
    refine .inr ⟨[], false, false, false, ?_⟩
    intro cur hc hne
    simp [parserLoop, argsAfter, hne]
  | cons t post ih =>
    cases hs : isSeparator t with
    | true =>
      by_cases hok : t.value = ['&'] ∨ startsWord post
      · cases hp : parserLoop [] post with
        | none =>
          refine .inl ?_
          intro cur hc
          rw [parserLoop_separator hs, dif_pos hc, if_pos hok, hp]
          rfl
        | some ns =>
          refine .inr ⟨ns, t.value = ['|'], t.value = [';'], t.value = ['&'], ?_⟩
          intro cur hc hne
          rw [parserLoop_separator hs, dif_pos hne, if_pos hok, hp]
          simp [argsAfter, hs]
      · refine .inl ?_
        intro cur hc
        rw [parserLoop_separator hs, dif_pos hc, if_neg hok]
    | false =>
      rcases ih with h | ⟨ns, p, s, b, h⟩
      · refine .inl ?_
        intro cur _
        rw [parserLoop_other hs]
        exact h _ (by simp)
      · refine .inr ⟨ns, p, s, b, ?_⟩
        intro cur hc hne
        rw [parserLoop_other hs, h _ (by simp) (by simp)]
        simp [argsAfter, hs]

/-- **A word is one argument of one command**, whatever its text, unless the parser
refuses the line. -/
theorem parserLoop_hole (cur : List Str) (pre post : List Token) :
    (∀ u, parserLoop cur (pre ++ ⟨u, .ordinary⟩ :: post) = none) ∨
    ∃ ns ms p s b, ∀ u, parserLoop cur (pre ++ ⟨u, .ordinary⟩ :: post) =
      some (ns ++ ⟨argsBefore cur pre ++ u :: argsAfter post, by simp, p, s, b⟩ :: ms) := by
  induction pre generalizing cur with
  | nil =>
    -- the word itself: what the parser says depends on what follows
    rcases parserLoop_after post with h | ⟨ns, p, s, b, h⟩
    · refine .inl ?_
      intro u
      rw [List.nil_append, parserLoop_word]
      exact h _ (by simp)
    · refine .inr ⟨[], ns, p, s, b, ?_⟩
      intro u
      rw [List.nil_append, parserLoop_word, h _ (by simp) (by simp)]
      simp [argsBefore]
  | cons t pre ih =>
    cases hs : isSeparator t with
    | true =>
      -- whether a word follows the separator does not depend on its text
      have hw : ∀ u, startsWord (pre ++ ⟨u, .ordinary⟩ :: post) =
          startsWord (pre ++ ⟨[], .ordinary⟩ :: post) := by
        intro u
        cases pre <;> rfl
      by_cases hc : cur = []
      · refine .inl ?_
        intro u
        rw [List.cons_append, parserLoop_separator hs, dif_neg (by simpa using hc)]
      by_cases hok : t.value = ['&'] ∨ startsWord (pre ++ ⟨[], .ordinary⟩ :: post)
      · rcases ih [] with h | ⟨ns, ms, p, s, b, h⟩
        · refine .inl ?_
          intro u
          rw [List.cons_append, parserLoop_separator hs, dif_pos hc, hw u, if_pos hok, h u]
          rfl
        · refine .inr ⟨⟨cur, hc, t.value = ['|'], t.value = [';'], t.value = ['&']⟩ :: ns, ms, p, s,
            b, ?_⟩
          intro u
          rw [List.cons_append, parserLoop_separator hs, dif_pos hc, hw u, if_pos hok, h u]
          simp [argsBefore, hs]
      · refine .inl ?_
        intro u
        rw [List.cons_append, parserLoop_separator hs, dif_pos hc, hw u, if_neg hok]
    | false =>
      rcases ih (cur ++ [t.value]) with h | ⟨ns, ms, p, s, b, h⟩
      · refine .inl ?_
        intro u
        rw [List.cons_append, parserLoop_other hs]
        exact h u
      · refine .inr ⟨ns, ms, p, s, b, ?_⟩
        intro u
        rw [List.cons_append, parserLoop_other hs, h u]
        simp [argsBefore, hs]

/-! ### Lines -/

/-- A command of a line: what the passes make of it, and how it is joined to the next
one. -/
structure Outcome where
  verdict : Verdict
  piped : Bool
  semi : Bool
  background : Bool
  deriving DecidableEq, Repr

def Node.outcome (n : Node) : Outcome := ⟨Cshell.verdict n.args, n.piped, n.semi, n.background⟩

/-- `lexer`, `parser`, `ext_in` and `ext_out`: the commands of a line, `none` when one of
the first two refuses it. -/
def outcome (l : Str) : Option (List Outcome) :=
  ((lexer l).bind parser).map (·.map Node.outcome)

/-- The lexer, having read `l₁` to the tokens `pre`, is at the start of a word, and after
it reads `l₂` to `post`. -/
inductive WordAt (l₂ : Str) (post : List Token) : Str → List Token → Prop
  | here : Ends l₂ → lexLoop l₂.tail = some post → WordAt l₂ post [] []
  | blank {c : Char} {l : Str} {pre : List Token} : isBlank c = true → WordAt l₂ post l pre →
      WordAt l₂ post (c :: l) pre
  | op {c : Char} {l : Str} {pre : List Token} : isOp c = true → c ≠ '>' → WordAt l₂ post l pre →
      WordAt l₂ post (c :: l) (⟨[c], .special⟩ :: pre)
  | gt {l : Str} {pre : List Token} : l.head? ≠ some '>' → WordAt l₂ post l pre →
      WordAt l₂ post ('>' :: l) (⟨['>'], .special⟩ :: pre)
  | gtgt {l : Str} {pre : List Token} : WordAt l₂ post l pre →
      WordAt l₂ post ('>' :: '>' :: l) (⟨['>', '>'], .special⟩ :: pre)
  | word {ps : List Part} {c : Char} {l : Str} {pre : List Token} : ps ≠ [] → (∀ p ∈ ps, p.Ok) →
      isBlank c = true ∨ isOp c = true → WordAt l₂ post l pre →
      WordAt l₂ post (source ps ++ c :: l) (⟨text ps, .ordinary⟩ :: pre)

/-- **Replacing a word of the line replaces its token.** -/
theorem WordAt.lexer {l₁ l₂ : Str} {pre post : List Token} (h : WordAt l₂ post l₁ pre)
    {ps : List Part} (hne : ps ≠ []) (hp : ∀ p ∈ ps, p.Ok) :
    lexer (l₁ ++ (source ps ++ l₂)) = some (pre ++ ⟨text ps, .ordinary⟩ :: post) := by
  unfold Cshell.lexer
  obtain ⟨c₀, cs₀, hs₀, -, hop₀⟩ := source_head hne hp
  induction h with
  | here hl hpost =>
    rw [List.nil_append, lexLoop_source hne hp hl, hpost]
    rfl
  | blank hc _ ih =>
    rw [List.cons_append, lexLoop_blank hc]
    exact ih
  | op hc hgt _ ih =>
    rw [List.cons_append, lexLoop_op hc hgt, ih]
    rfl
  | @gt l _ hl _ ih =>
    have hhead : (l ++ (source ps ++ l₂)).head? ≠ some '>' := by
      cases l with
      | nil =>
        rw [List.nil_append, hs₀]
        rintro he
        cases he
        cases hop₀
      | cons c l => exact hl
    rw [List.cons_append, lexLoop_gt hhead, ih]
    rfl
  | gtgt _ ih =>
    rw [List.cons_append, List.cons_append, lexLoop_gtgt, ih]
    rfl
  | word hne' hp' hc _ ih =>
    rw [List.append_assoc, List.cons_append, lexLoop_source hne' hp' (by simpa [Ends] using hc),
      List.tail_cons, ih]
    rfl

/-- **Every word of a line is at such a place.** -/
theorem exists_wordAt {l v : Str} {pre post : List Token}
    (h : lexer l = some (pre ++ ⟨v, .ordinary⟩ :: post)) : ∃ l₁ ps l₂, ps ≠ [] ∧
      (∀ p ∈ ps, p.Ok) ∧ text ps = v ∧ l = l₁ ++ (source ps ++ l₂) ∧ WordAt l₂ post l₁ pre := by
  unfold lexer at h
  induction hn : l.length using Nat.strongRecOn generalizing l pre with
  | ind n ih =>
    -- an operator is one of the tokens before the word
    have skip : ∀ {t : Token} {cs : Str}, t.type = .special → cs.length < n →
        (lexLoop cs).map (t :: ·) = some (pre ++ ⟨v, .ordinary⟩ :: post) → ∃ pre' l₁ ps l₂,
          pre = t :: pre' ∧ ps ≠ [] ∧ (∀ p ∈ ps, p.Ok) ∧ text ps = v ∧
          cs = l₁ ++ (source ps ++ l₂) ∧ WordAt l₂ post l₁ pre' := by
      intro t cs ht hlt hm
      obtain ⟨ts, hts, he⟩ := Option.map_eq_some_iff.mp hm
      cases pre with
      | nil =>
        rw [List.nil_append, List.cons.injEq] at he
        rw [he.1] at ht
        cases ht
      | cons t' pre =>
        rw [List.cons_append, List.cons.injEq] at he
        obtain ⟨rfl, rfl⟩ := he
        obtain ⟨l₁, ps, l₂, hps⟩ := ih _ hlt hts rfl
        exact ⟨pre, l₁, ps, l₂, rfl, hps⟩
    cases l with
    | nil =>
      rw [lexLoop, Option.some_inj] at h
      exact absurd (congrArg List.length h) (by simp)
    | cons c cs =>
      have hlt : cs.length < n := by rw [← hn]; simp
      by_cases hb : isBlank c = true
      · rw [lexLoop_blank hb] at h
        obtain ⟨l₁, ps, l₂, hne, hp, ht, rfl, hw⟩ := ih _ hlt h rfl
        exact ⟨c :: l₁, ps, l₂, hne, hp, ht, rfl, .blank hb hw⟩
      by_cases ho : isOp c = true
      · by_cases hc : c = '>'
        · subst hc
          by_cases hg : cs.head? = some '>'
          · obtain ⟨ds, rfl⟩ : ∃ ds, cs = '>' :: ds := by
              cases cs with
              | nil => cases hg
              | cons d ds => exact ⟨ds, by rw [Option.some_inj.mp hg]⟩
            rw [lexLoop_gtgt] at h
            obtain ⟨pre', l₁, ps, l₂, rfl, hne, hp, ht, rfl, hw⟩ :=
              skip rfl (by simp only [List.length_cons] at hlt; omega) h
            exact ⟨'>' :: '>' :: l₁, ps, l₂, hne, hp, ht, rfl, .gtgt hw⟩
          · rw [lexLoop_gt hg] at h
            obtain ⟨pre', l₁, ps, l₂, rfl, hne, hp, ht, rfl, hw⟩ := skip rfl hlt h
            refine ⟨'>' :: l₁, ps, l₂, hne, hp, ht, rfl, .gt ?_ hw⟩
            intro hl
            cases l₁ with
            | nil => cases hl
            | cons d ds => exact hg hl
        · rw [lexLoop_op ho hc] at h
          obtain ⟨pre', l₁, ps, l₂, rfl, hne, hp, ht, rfl, hw⟩ := skip rfl hlt h
          exact ⟨c :: l₁, ps, l₂, hne, hp, ht, rfl, .op ho hc hw⟩
      -- a word, which is the one looked for or stands before it
      obtain ⟨ps, hp, ⟨r, hr, hl⟩ | ⟨u, hu, hl⟩⟩ := word_cases (c :: cs)
      · have hne : ps ≠ [] := by
          rintro rfl
          rw [show source [] ++ r = r from rfl] at hl
          subst hl
          rcases hr c rfl with h' | h'
          · exact hb h'
          · exact ho h'
        rw [hl, lexLoop_source hne hp hr] at h
        obtain ⟨ts, hts, he⟩ := Option.map_eq_some_iff.mp h
        cases pre with
        | nil =>
          rw [List.nil_append, List.cons.injEq, Token.mk.injEq] at he
          obtain ⟨⟨htext, -⟩, rfl⟩ := he
          exact ⟨[], ps, r, hne, hp, htext, hl, .here hr hts⟩
        | cons t pre =>
          rw [List.cons_append, List.cons.injEq] at he
          obtain ⟨rfl, rfl⟩ := he
          cases r with
          | nil =>
            rw [List.tail_nil, lexLoop, Option.some_inj] at hts
            exact absurd (congrArg List.length hts) (by simp)
          | cons d r =>
            have hlen : r.length < n := by
              rw [← hn, hl]
              simp only [List.length_append, List.length_cons]
              omega
            obtain ⟨l₁, ps', l₂, hne', hp', ht', rfl, hw⟩ := ih _ hlen hts rfl
            refine ⟨source ps ++ d :: l₁, ps', l₂, hne', hp', ht', ?_, .word hne hp (hr d rfl) hw⟩
            rw [hl]
            simp
      · rw [hl, lexLoop_unterminated hp hu] at h
        cases h

/-- At its place between `l₁` and `l₂`, a word with text `v` is treated as any other word:
whatever ordinary word stands there, and however it and `v` are written, the
parser refuses the line, or the commands are the same, up to that one text. -/
def PlainWord (l₁ l₂ : Str) (v : Str) : Prop :=
  (∀ ps : List Part, ps ≠ [] → (∀ p ∈ ps, p.Ok) → text ps = v ∨ isRedir (text ps) = false →
    outcome (l₁ ++ (source ps ++ l₂)) = none) ∨
  ∃ before K after p s b, OneHole K ∧ ∀ ps : List Part, ps ≠ [] → (∀ p ∈ ps, p.Ok) →
    text ps = v ∨ isRedir (text ps) = false →
    outcome (l₁ ++ (source ps ++ l₂)) = some (before ++ ⟨K (text ps), p, s, b⟩ :: after)

theorem WordAt.outcome {l₁ l₂ : Str} {pre post : List Token} (h : WordAt l₂ post l₁ pre)
    {ps : List Part} (hne : ps ≠ []) (hp : ∀ p ∈ ps, p.Ok) :
    outcome (l₁ ++ (source ps ++ l₂)) =
      (parserLoop [] (pre ++ ⟨text ps, .ordinary⟩ :: post)).map (·.map Node.outcome) := by
  rw [Cshell.outcome, h.lexer hne hp]
  rfl

/-- A one-hole verdict that shows no text does not depend on it. -/
theorem OneHole.const {K : Str → Verdict} (hK : OneHole K) {u u' : Str} (hu : u ≠ u')
    (h : K u = K u') : ∀ w, K w = K u := by
  intro w
  cases hK with
  | badIn => rfl
  | badOut => rfl
  | arg as bs ins outs => simp [hu] at h
  | inFile args fs gs outs => simp [hu] at h
  | outFile args ins fs gs b => simp [hu] at h

/-- An operator is not shown by any verdict. -/
theorem OneHole.const_of_redir {K : Str → Verdict} (hK : OneHole K) {v : Str}
    (hv : isRedir v = true) {args : List Str} (h : verdict args = K v) : ∀ w, K w = K v := by
  intro w
  cases hK with
  | badIn => rfl
  | badOut => rfl
  | arg as bs ins outs => exact absurd (by simp) (verdict_ok h hv).1
  | inFile args fs gs outs => exact absurd (by simp) (verdict_ok h hv).2.1
  | outFile args ins fs gs b => exact absurd (by simp) ((verdict_ok h hv).2.2 b)

/-- **When a quoted operator is a plain word**: at every place of every line, a word
whose text is `v` is treated as any other word if and only if `v` is none of `<`, `>`
and `>>`, or the parser refuses the line, or the command is in error anyway. -/
theorem plain_word_iff {l₁ l₂ v : Str} {pre post : List Token} (h : WordAt l₂ post l₁ pre) :
    PlainWord l₁ l₂ v ↔ isRedir v = false ∨ parser (pre ++ ⟨v, .ordinary⟩ :: post) = none ∨
      ErrorAnyway (argsBefore [] pre) v (argsAfter post) := by
  -- every text can be written
  have write : ∀ u : Str, ∃ ps : List Part, ps ≠ [] ∧ (∀ p ∈ ps, p.Ok) ∧ text ps = u := by
    intro u
    obtain ⟨ps, hne, hp, -, ht⟩ := Quote.double.write_parts u (by simp)
    exact ⟨ps, hne, hp, ht⟩
  rcases parserLoop_hole [] pre post with hnone | ⟨ns, ms, p, s, b, hsome⟩
  · have hl : PlainWord l₁ l₂ v := by
      refine .inl ?_
      intro ps hne hp _
      rw [h.outcome hne hp, hnone]
      rfl
    exact ⟨fun _ => .inr (.inl (hnone v)), fun _ => hl⟩
  obtain ⟨K, hK, hord⟩ := verdict_hole (argsBefore [] pre) (argsAfter post)
  have hout : ∀ ps : List Part, ps ≠ [] → (∀ p ∈ ps, p.Ok) → outcome (l₁ ++ (source ps ++ l₂)) =
      some (ns.map Node.outcome ++
        ⟨verdict (argsBefore [] pre ++ text ps :: argsAfter post), p, s, b⟩ ::
          ms.map Node.outcome) := by
    intro ps hne hp
    rw [h.outcome hne hp, hsome]
    simp [Node.outcome]
  constructor
  · intro hplain
    cases hv : isRedir v with
    | false => exact .inl rfl
    | true =>
      refine .inr (.inr ((verdict_redir_iff hv hK hord).mp ?_))
      obtain ⟨pv, hnev, hpv, rfl⟩ := write v
      rcases hplain with hno | ⟨before, K', after, p', s', b', hK', hall⟩
      · have := hno pv hnev hpv (.inl rfl)
        rw [hout pv hnev hpv] at this
        cases this
      have hlist := hall pv hnev hpv (.inl rfl)
      rw [hout pv hnev hpv, Option.some_inj] at hlist
      -- the text at the one place is not shown, for `v` would be
      obtain ⟨args, hargs⟩ : ∃ args, verdict args = K' (text pv) := by
        have hm : (⟨K' (text pv), p', s', b'⟩ : Outcome) ∈ ns.map Node.outcome ++
            ⟨verdict (argsBefore [] pre ++ text pv :: argsAfter post), p, s, b⟩ ::
              ms.map Node.outcome := by
          rw [hlist]
          simp
        rcases List.mem_append.mp hm with hm | hm
        · obtain ⟨n, -, hn⟩ := List.mem_map.mp hm
          exact ⟨n.args, congrArg Outcome.verdict hn⟩
        · rcases List.mem_cons.mp hm with hm | hm
          · exact ⟨_, (congrArg Outcome.verdict hm).symm⟩
          · obtain ⟨n, -, hn⟩ := List.mem_map.mp hm
            exact ⟨n.args, congrArg Outcome.verdict hn⟩
      have hconst := hK'.const_of_redir hv hargs
      -- so every ordinary word has the verdict of `v`
      have hsame : ∀ u, isRedir u = false →
          K u = verdict (argsBefore [] pre ++ text pv :: argsAfter post) := by
        intro u hu
        obtain ⟨pu, hneu, hpu, rfl⟩ := write u
        have hu' := hall pu hneu hpu (.inr hu)
        rw [hout pu hneu hpu, Option.some_inj, hconst, ← hlist, List.append_right_inj,
          List.cons.injEq, Outcome.mk.injEq] at hu'
        rw [← hord _ hu, hu'.1.1]
      have hnil := hsame [] rfl
      rw [← hnil]
      exact (hK.const (by simp) (hnil.trans (hsame ['x'] rfl).symm) _).symm
  · intro hcond
    have hKv : verdict (argsBefore [] pre ++ v :: argsAfter post) = K v := by
      rcases hcond with hv | hp | he
      · exact hord v hv
      · have := hsome v
        rw [← parser, hp] at this
        cases this
      · cases hv : isRedir v with
        | false => exact hord v hv
        | true => exact (verdict_redir_iff hv hK hord).mpr he
    refine .inr ⟨ns.map Node.outcome, K, ms.map Node.outcome, p, s, b, hK, ?_⟩
    rintro ps hne hp (rfl | ht)
    · rw [hout ps hne hp, hKv]
    · rw [hout ps hne hp, hord _ ht]

/-- The place of the word in `echo … f`. -/
theorem wordAt_echo : WordAt [' ', 'f'] [⟨['f'], .ordinary⟩] ['e', 'c', 'h', 'o', ' ']
    [⟨['e', 'c', 'h', 'o'], .ordinary⟩] := by
  have hpost : lexLoop ['f'] = some [⟨['f'], .ordinary⟩] := by decide +kernel
  show WordAt _ _ (source [.plain 'e', .plain 'c', .plain 'h', .plain 'o'] ++ ' ' :: [])
    [⟨text [.plain 'e', .plain 'c', .plain 'h', .plain 'o'], .ordinary⟩]
  exact .word (by simp) (by simp [Part.Ok, isBlank, isOp]) (.inl rfl)
    (.here (by simp [Ends, isBlank]) hpost)

/-- `echo "|" f` -/
theorem plain_word_pipe : PlainWord ['e', 'c', 'h', 'o', ' '] [' ', 'f'] ['|'] :=
  (plain_word_iff wordAt_echo).mpr (.inl rfl)

/-- `echo ">" f` writes to the file `f`. -/
theorem quoted_gt_not_plain : ¬ PlainWord ['e', 'c', 'h', 'o', ' '] [' ', 'f'] ['>'] := by
  have hgt : outcome (['e', 'c', 'h', 'o', ' '] ++ (source [.single ['>']] ++ [' ', 'f'])) =
      some [⟨.ok [['e', 'c', 'h', 'o']] [] [(['f'], false)], false, false, false⟩] := by
    decide +kernel
  have hx : outcome (['e', 'c', 'h', 'o', ' '] ++ (source [.plain 'x'] ++ [' ', 'f'])) =
      some [⟨.ok [['e', 'c', 'h', 'o'], ['x'], ['f']] [] [], false, false, false⟩] := by
    decide +kernel
  have okgt : ∀ p ∈ [Part.single ['>']], p.Ok := by simp [Part.Ok]
  have okx : ∀ p ∈ [Part.plain 'x'], p.Ok := by simp [Part.Ok, isBlank, isOp]
  rintro (h | ⟨before, K, after, p, s, b, hK, h⟩)
  · have := h [.plain 'x'] (by simp) okx (.inr rfl)
    rw [hx] at this
    cases this
  · have h₁ := h [.single ['>']] (by simp) okgt (.inl rfl)
    have h₂ := h [.plain 'x'] (by simp) okx (.inr rfl)
    rw [hgt, Option.some_inj] at h₁
    rw [hx, Option.some_inj] at h₂
    -- there is one command, and no context fits both
    cases before with
    | cons o before => simp at h₁
    | nil =>
      simp only [List.nil_append, List.cons.injEq, Outcome.mk.injEq] at h₁ h₂
      obtain ⟨⟨h₁, -⟩, -⟩ := h₁
      obtain ⟨⟨h₂, -⟩, -⟩ := h₂
      cases hK with
      | badIn => cases h₁
      | badOut => cases h₁
      | arg as bs ins outs =>
        simp only [Verdict.ok.injEq] at h₁ h₂
        have l₁ := congrArg List.length h₁.1
        have l₂ := congrArg List.length h₂.1
        simp only [List.length_append, List.length_cons] at l₁ l₂
        omega
      | inFile args fs gs outs => simp at h₂
      | outFile args ins fs gs b => simp at h₂

end Cshell
