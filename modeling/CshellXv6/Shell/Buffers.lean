/-
Rewriting an argument in its buffer.

An argument of a command is the buffer `lexer` made for its token.  `process_cmd`
later writes a longer text over two kinds of arguments: one that starts with
`~` gets the home directory in its place (`str_replace`), and the `-` of a
`reveal` is overwritten with the previous directory (`strcpy`).  Neither looks
at the size of the buffer, which is what was left of the line when the token
was read.

The functions of the parser and of the redirection passes are written here for
arguments that carry their buffer; `parseArgs_nodes` and `passArgs_scan` say
that they do what the parser and the passes do.

* `lexArgs_fit` — what `lexer` itself writes fits;
* `tildeRewrites_fit_iff`, `dashRewrites_fit_iff` — when the rewrites of a command
  fit as well.
-/
import CshellXv6.Shell.Capacity

namespace Cshell

/-- An argument and the size of its buffer. -/
structure Arg where
  text : Str
  size : ℕ
  deriving DecidableEq, Repr

/-- The characters a buffer has room for besides the text and the terminator. -/
def Arg.slack (a : Arg) : ℕ := a.size - (a.text.length + 1)

/-- The argument after the expansion of `~`, in the same buffer. -/
def Arg.expand (home : Home) (a : Arg) : Arg := { a with text := Cshell.expand home a.text }

/-- The tokens of a line with the sizes of their buffers. -/
def lexArgs (cmd : Str) : Option (List (Token × ℕ)) :=
  (lexTable 0 cmd).mapM fun s => s.token.map (·, s.size)

/-- A command whose arguments carry their buffers. -/
structure ArgNode where
  args : List Arg
  ne : args ≠ []
  piped : Bool
  semi : Bool
  background : Bool

def ArgNode.cmd (n : ArgNode) : Arg := n.args.head n.ne

/-- The command without the buffers. -/
def ArgNode.toNode (n : ArgNode) : Node :=
  ⟨n.args.map Arg.text, by simpa using n.ne, n.piped, n.semi, n.background⟩

/-- The loop of `parser`. -/
def parseArgs (cur : List Arg) : List (Token × ℕ) → Option (List ArgNode)
  | [] => some (if h : cur ≠ [] then [⟨cur, h, false, false, false⟩] else [])
  | (t, size) :: ts =>
    if t.isSeparator then
      if h : cur ≠ [] ∧ (t.value = ['&'] ∨ startsWord (ts.map Prod.fst)) then
        (parseArgs [] ts).map (⟨cur, h.1, t.value = ['|'], t.value = [';'], t.value = ['&']⟩ :: ·)
      else none
    else parseArgs (cur ++ [⟨t.value, size⟩]) ts

/-- What a pass that gets through keeps. -/
def passArgs {α : Type} (sel : Str → Option (Str → α)) : List Arg → Option (List Arg)
  | [] => some []
  | a :: as =>
    match sel a.text with
    | some _ =>
      match as with
      | [] => none
      | t :: ts => if isRedir t.text then none else passArgs sel ts
    | none => (passArgs sel as).map (a :: ·)

/-! ### The rewrites -/

/-- A text written over an argument. -/
structure Rewrite where
  arg : Arg
  text : Str

/-- The text and its terminator are within the buffer. -/
def Rewrite.Fits (r : Rewrite) : Prop := r.text.length + 1 ≤ r.arg.size

/-- `str_replace` on the arguments that start with `~`. -/
def tildeRewrites (home : Home) (n : ArgNode) : List Rewrite :=
  (n.args.filter fun a => a.text.head? = some '~').map fun a => ⟨a, expand home a.text⟩

/-- The `-` that `reveal` takes for the previous directory. -/
def revealDash (home : Home) (n : ArgNode) : Option Arg :=
  if expand home n.cmd.text = "reveal".toList then
    match (passArgs inOp (n.args.map (Arg.expand home))).bind (passArgs outOp) with
    | none => none
    | some as =>
      let opts := skipOptions (as.map Arg.text).tail
      if 2 ≤ as.length ∧ opts.2 then as[1 + opts.1]? else none
  else none

/-- `strcpy` of `prev` over the `-` of a `reveal`. -/
def dashRewrites (home : Home) (prev : Str) (n : ArgNode) : List Rewrite :=
  if prev = [] then [] else (revealDash home n).toList.map (⟨·, prev⟩)

/-- The commands of a line. -/
def lineArgs (cmd : Str) : List ArgNode := ((lexArgs cmd).bind (parseArgs [])).getD []

/-! ### The buffers are those of the line -/

theorem lexArgs_tokens (cmd : Str) : (lexArgs cmd).map (List.map Prod.fst) = lexer cmd := by
  rw [← lexTable_tokens 0 cmd, lexArgs]
  generalize lexTable 0 cmd = slots
  induction slots with
  | nil => rfl
  | cons s slots ih =>
    obtain ⟨k, n, t⟩ := s
    cases t with
    | none => simp
    | some t =>
      rw [tokens_some, ← ih]
      cases h : slots.mapM fun s => s.token.map (·, s.size) with
      | none => simp [h]
      | some x => simp [h]

theorem parseArgs_nodes (cur : List Arg) (ts : List (Token × ℕ)) :
    (parseArgs cur ts).map (List.map ArgNode.toNode) =
      parserLoop (cur.map Arg.text) (ts.map Prod.fst) := by
  induction ts generalizing cur with
  | nil =>
    by_cases hc : cur = []
    · simp [parseArgs, parserLoop, hc]
    · simp [parseArgs, parserLoop, hc, ArgNode.toNode]
  | cons t ts ih =>
    obtain ⟨t, size⟩ := t
    rw [List.map_cons, parserLoop_cons, parseArgs]
    by_cases ht : t.isSeparator = true
    · rw [if_pos ht, if_pos ht]
      by_cases hc : cur ≠ [] ∧ (t.value = ['&'] ∨ startsWord (ts.map Prod.fst))
      · have ih' : (parseArgs [] ts).map (List.map ArgNode.toNode) =
            parserLoop [] (ts.map Prod.fst) := ih []
        rw [dif_pos hc, dif_pos (by simpa using hc), ← ih', Option.map_map, Option.map_map]
        rfl
      · rw [dif_neg hc, dif_neg (by simpa using hc)]
        rfl
    · rw [if_neg ht, if_neg ht, ih, List.map_append]
      rfl

theorem passArgs_scan {α : Type} (sel : Str → Option (Str → α)) (as : List Arg) :
    (passArgs sel as).map (List.map Arg.text) =
      if (scan sel (as.map Arg.text)).files.isSome then some (scan sel (as.map Arg.text)).args
      else none := by
  fun_induction passArgs sel as with
  | case1 => simp [scan]
  | case2 a f h => simp [scan, h]
  | case3 a f h t ts ht => simp [scan, h, ht]
  | case4 a f h t ts ht ih =>
    simp only [List.map_cons, scan, h, ht, Bool.false_eq_true, if_false, Option.isSome_map]
    exact ih
  | case5 a as h ih =>
    simp only [List.map_cons, scan, h, Option.map_map]
    split at ih
    case isTrue hs =>
      rw [if_pos hs]
      obtain ⟨x, hx, hx'⟩ := Option.map_eq_some_iff.mp ih
      simp [hx, hx']
    case isFalse hs =>
      rw [if_neg hs]
      rw [Option.map_eq_none_iff] at ih
      simp [ih]

/-! ### What `lexer` writes fits -/

theorem dquote_text_le {cs : Str} {x : Str × Str} (h : dquote cs = some x) :
    x.1.length + x.2.length < cs.length := by
  fun_induction dquote cs generalizing x with
  | case1 => cases h
  | case2 =>
    cases h
    simp
  | case3 => cases h
  | case4 d ds _ ih =>
    obtain ⟨y, hy, rfl⟩ := Option.map_eq_some_iff.mp h
    have hlt := ih hy
    have hlen : (if d = '"' ∨ d = '\\' then [d] else ['\\', d]).length ≤ 2 := by
      split <;> simp
    simp only [prepend, List.length_append, List.length_cons]
    omega
  | case5 c cs _ _ ih =>
    obtain ⟨y, hy, rfl⟩ := Option.map_eq_some_iff.mp h
    have hlt := ih hy
    simp only [prepend, List.length_append, List.length_cons, List.length_nil]
    omega

theorem squote_text_le {cs : Str} {x : Str × Str} (h : squote cs = some x) :
    x.1.length + x.2.length < cs.length := by
  fun_induction squote cs generalizing x with
  | case1 => cases h
  | case2 =>
    cases h
    simp
  | case3 c cs _ ih =>
    obtain ⟨y, hy, rfl⟩ := Option.map_eq_some_iff.mp h
    have hlt := ih hy
    simp only [prepend, List.length_append, List.length_cons, List.length_nil]
    omega

/-- A word is no longer than the way it is written. -/
theorem word_text_le {cs : Str} {x : Str × Str} (h : word cs = some x) :
    x.1.length + x.2.length ≤ cs.length := by
  fun_induction word cs generalizing x with
  | case1 =>
    cases h
    simp
  | case2 =>
    cases h
    simp
  | case3 => cases h
  | case4 d ds _ ih =>
    obtain ⟨y, hy, rfl⟩ := Option.map_eq_some_iff.mp h
    have hle := ih hy
    simp only [prepend, List.length_append, List.length_cons, List.length_nil]
    omega
  | case5 => cases h
  | case6 cs u s hq _ _ ih =>
    obtain ⟨y, hy, rfl⟩ := Option.map_eq_some_iff.mp h
    have hle := ih hy
    have hlt : u.length + s.length < cs.length := dquote_text_le hq
    simp only [prepend, List.length_append, List.length_cons]
    omega
  | case7 => cases h
  | case8 cs u s hq _ _ _ ih =>
    obtain ⟨y, hy, rfl⟩ := Option.map_eq_some_iff.mp h
    have hle := ih hy
    have hlt : u.length + s.length < cs.length := squote_text_le hq
    simp only [prepend, List.length_append, List.length_cons]
    omega
  | case9 c cs _ _ _ _ ih =>
    obtain ⟨y, hy, rfl⟩ := Option.map_eq_some_iff.mp h
    have hle := ih hy
    simp only [prepend, List.length_append, List.length_cons, List.length_nil]
    omega

/-- **What `lexer` writes fits its buffers.** -/
theorem lexTable_fit {k : ℕ} {cmd : Str} {s : Slot} {t : Token} (hs : s ∈ lexTable k cmd)
    (ht : s.token = some t) : t.value.length + 1 ≤ s.size := by
  -- the first entry fits, and by induction the others
  have head : ∀ (x : Slot) (l : List Slot), (∀ u, x.token = some u → u.value.length + 1 ≤ x.size) →
      (s ∈ l → t.value.length + 1 ≤ s.size) → s ∈ x :: l → t.value.length + 1 ≤ s.size := by
    intro x l hx hl hm
    rcases List.mem_cons.mp hm with rfl | hm
    · exact hx t ht
    · exact hl hm
  fun_induction lexTable k cmd with
  | case1 => cases hs
  | case2 k c cs hc ih => exact ih hs
  | case3 k =>
    refine head _ _ ?_ (fun h => by cases h) hs
    intro u hu
    cases hu
    simp
  | case4 k ds _ ih =>
    refine head _ _ ?_ ih hs
    intro u hu
    cases hu
    simp
  | case5 k d ds hd _ ih =>
    refine head _ _ ?_ ih hs
    intro u hu
    cases hu
    simp
  | case6 k c cs hb hc ho ih =>
    refine head _ _ ?_ ih hs
    intro u hu
    cases hu
    simp
  | case7 k c cs hb hc ho hw =>
    refine head _ _ ?_ (fun h => by cases h) hs
    intro u hu
    cases hu
  | case8 k c cs hb hc ho v r hw ih =>
    -- a word: its text is no longer than what was read of the line
    refine head _ _ ?_ ih hs
    intro u hu
    cases hu
    have hle : v.length + r.length ≤ (c :: cs).length := word_text_le hw
    rw [List.length_cons] at hle
    show v.length + 1 ≤ cs.length + 2
    omega

theorem lexArgs_fit {cmd : Str} {ts : List (Token × ℕ)} (h : lexArgs cmd = some ts)
    {x : Token × ℕ} (hx : x ∈ ts) : x.1.value.length + 1 ≤ x.2 := by
  have hmem : ∀ (slots : List Slot) (ts : List (Token × ℕ)),
      (slots.mapM fun s => s.token.map (·, s.size)) = some ts →
      x ∈ ts → ∃ s ∈ slots, s.token = some x.1 ∧ s.size = x.2 := by
    intro slots
    induction slots with
    | nil =>
      intro ts hts hx
      cases hts
      cases hx
    | cons s slots ih =>
      intro ts hts hx
      rw [List.mapM_cons] at hts
      obtain ⟨y, hy, hts⟩ := Option.bind_eq_some_iff.mp hts
      obtain ⟨ys, hys, hts⟩ := Option.bind_eq_some_iff.mp hts
      obtain ⟨t, ht, rfl⟩ := Option.map_eq_some_iff.mp hy
      cases hts
      rcases List.mem_cons.mp hx with rfl | hx
      · exact ⟨s, List.mem_cons_self, ht, rfl⟩
      · obtain ⟨s', hs', h'⟩ := ih ys hys hx
        exact ⟨s', List.mem_cons_of_mem _ hs', h'⟩
  obtain ⟨s, hs, ht, hsize⟩ := hmem _ ts h hx
  rw [← hsize]
  exact lexTable_fit hs ht

/-- Every argument of a command is one of the tokens. -/
theorem parseArgs_fit {cur : List Arg} {ts : List (Token × ℕ)} {ns : List ArgNode}
    (h : parseArgs cur ts = some ns) (hcur : ∀ a ∈ cur, a.text.length + 1 ≤ a.size)
    (hts : ∀ x ∈ ts, x.1.value.length + 1 ≤ x.2) {n : ArgNode} (hn : n ∈ ns) {a : Arg}
    (ha : a ∈ n.args) : a.text.length + 1 ≤ a.size := by
  induction ts generalizing cur ns with
  | nil =>
    simp only [parseArgs, Option.some_inj] at h
    split at h
    case isTrue hc =>
      subst h
      rw [List.mem_singleton] at hn
      subst hn
      exact hcur a ha
    case isFalse =>
      subst h
      cases hn
  | cons t ts ih =>
    obtain ⟨t, size⟩ := t
    have hts' : ∀ x ∈ ts, x.1.value.length + 1 ≤ x.2 := fun x hx => hts x (List.mem_cons_of_mem _ hx)
    rw [parseArgs] at h
    split at h
    case isTrue =>
      split at h
      case isFalse => cases h
      case isTrue hc =>
        obtain ⟨ms, hms, rfl⟩ := Option.map_eq_some_iff.mp h
        rcases List.mem_cons.mp hn with rfl | hn
        · exact hcur a ha
        · exact ih hms (by simp) hts' hn
    case isFalse =>
      refine ih h ?_ hts' hn
      intro b hb
      rcases List.mem_append.mp hb with hb | hb
      · exact hcur b hb
      · rw [List.mem_singleton] at hb
        subst hb
        exact hts (t, size) List.mem_cons_self

theorem lineArgs_fit {cmd : Str} {n : ArgNode} (hn : n ∈ lineArgs cmd) {a : Arg}
    (ha : a ∈ n.args) : a.text.length + 1 ≤ a.size := by
  unfold lineArgs at hn
  cases h : lexArgs cmd with
  | none =>
    rw [h] at hn
    cases hn
  | some ts =>
    rw [h, Option.bind_some] at hn
    cases hp : parseArgs [] ts with
    | none =>
      rw [hp] at hn
      cases hn
    | some ns =>
      rw [hp, Option.getD_some] at hn
      exact parseArgs_fit hp (by simp) (fun x hx => lexArgs_fit h hx) hn ha

/-! ### When the rewrites fit -/

theorem passArgs_mem {α : Type} {sel : Str → Option (Str → α)} {as bs : List Arg}
    (h : passArgs sel as = some bs) {b : Arg} (hb : b ∈ bs) : b ∈ as := by
  fun_induction passArgs sel as generalizing bs with
  | case1 =>
    cases h
    cases hb
  | case2 => cases h
  | case3 => cases h
  | case4 a f hf t ts ht ih => exact List.mem_cons_of_mem _ (List.mem_cons_of_mem _ (ih h hb))
  | case5 a as hf ih =>
    obtain ⟨cs, hcs, rfl⟩ := Option.map_eq_some_iff.mp h
    rcases List.mem_cons.mp hb with rfl | hb
    · exact List.mem_cons_self
    · exact List.mem_cons_of_mem _ (ih hcs hb)

/-- The options in front of a `-` end at it. -/
theorem skipOptions_dash {as : List Str} (h : (skipOptions as).2 = true) :
    as[(skipOptions as).1]? = some ['-'] := by
  fun_induction skipOptions as with
  | case1 => cases h
  | case2 as => simp
  | case3 a as hd hne ih => simpa using ih h
  | case4 => cases h

/-- The `-` of a `reveal` is an argument of the line. -/
theorem revealDash_mem {home : Home} {n : ArgNode} {a : Arg} (h : revealDash home n = some a) :
    a.text = ['-'] ∧ a ∈ n.args := by
  unfold revealDash at h
  split at h
  case isFalse => cases h
  case isTrue =>
    split at h
    case h_1 => cases h
    case h_2 as has =>
      obtain ⟨bs, hbs, hcs⟩ := Option.bind_eq_some_iff.mp has
      simp only at h
      split at h
      case isFalse => cases h
      case isTrue hopt =>
        have htext : a.text = ['-'] := by
          have hd := skipOptions_dash hopt.2
          rw [List.getElem?_tail, List.getElem?_map, Nat.add_comm, h] at hd
          exact Option.some_inj.mp hd
        refine ⟨htext, ?_⟩
        have hmem := passArgs_mem hbs (passArgs_mem hcs (List.mem_of_getElem? h))
        obtain ⟨b, hb, rfl⟩ := List.mem_map.mp hmem
        -- an argument that comes out as `-` was not expanded
        have hb' : b.text = ['-'] := (expand_eq_cons_iff home (by decide) (by decide)).mp htext
        have he : b.expand home = b := by
          rw [Arg.expand, show expand home b.text = b.text from htext.trans hb'.symm]
        rw [he]
        exact hb

/-- Putting a text in the place of the first character. -/
theorem replace_fits_iff {a : Arg} (hfit : a.text.length + 1 ≤ a.size) (hne : a.text ≠ [])
    (new : Str) : (new ++ a.text.tail).length + 1 ≤ a.size ↔ new.length ≤ a.slack + 1 := by
  have hpos := List.length_pos_iff.mpr hne
  rw [List.length_append, List.length_tail, Arg.slack]
  omega

theorem tildeRewrites_fit_iff {home : Home} {n : ArgNode}
    (hfit : ∀ a ∈ n.args, a.text.length + 1 ≤ a.size) :
    (∀ r ∈ tildeRewrites home n, r.Fits) ↔
      ∀ a ∈ n.args, a.text.head? = some '~' → home.1.length ≤ a.slack + 1 := by
  have hone : ∀ a ∈ n.args, a.text.head? = some '~' →
      (Rewrite.Fits ⟨a, expand home a.text⟩ ↔ home.1.length ≤ a.slack + 1) := by
    intro a ha hd
    have hne : a.text ≠ [] := by
      intro h
      rw [h] at hd
      cases hd
    rw [Rewrite.Fits, expand, if_pos hd]
    exact replace_fits_iff (hfit a ha) hne home.1
  simp only [tildeRewrites, List.mem_map, List.mem_filter, decide_eq_true_eq]
  constructor
  · intro h a ha hd
    exact (hone a ha hd).mp (h _ ⟨a, ⟨ha, hd⟩, rfl⟩)
  · rintro h r ⟨a, ⟨ha, hd⟩, rfl⟩
    exact (hone a ha hd).mpr (h a ha hd)

theorem dashRewrites_fit_iff {home : Home} {prev : Str} {n : ArgNode}
    (hfit : ∀ a ∈ n.args, a.text.length + 1 ≤ a.size) :
    (∀ r ∈ dashRewrites home prev n, r.Fits) ↔
      ∀ a, revealDash home n = some a → prev.length ≤ a.slack + 1 := by
  unfold dashRewrites
  by_cases hp : prev = []
  · simp [hp]
  · rw [if_neg hp]
    cases hd : revealDash home n with
    | none => simp
    | some a =>
      obtain ⟨htext, ha⟩ := revealDash_mem hd
      have hiff := replace_fits_iff (hfit a ha) (by rw [htext]; simp) prev
      have htail : a.text.tail = [] := by rw [htext]; rfl
      rw [htail, List.append_nil] at hiff
      simpa [Rewrite.Fits] using hiff

end Cshell
