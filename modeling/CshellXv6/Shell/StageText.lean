/-
Builtins in a pipeline and alone.

A stage of a pipeline calls its builtin through `exec_builtin`; a command that
is alone on its line comes through a branch of `process_cmd`.  Both paths put
in defaults and check the words before the builtin does so itself, each in its
own way, and they agree only in part:

* `locate` without a name is an error to one path and nothing to the other;
* `peek` without an operand reads standard input on the one path and is an
  error on the other, and an option after an operand is an error on the one
  and a file name on the other;
* a `-` among the options of `reveal` is the previous directory on the one path
  and an option without letters on the other, and the number of operands is
  checked before the letters on the one and after them on the other.

* `SameText` — the argument vectors, and the files where these decide, for
  which the two paths agree;
* `stage_text_iff` — they agree there and nowhere else.
-/
import CshellXv6.Shell.PeekLines
import CshellXv6.Shell.RevealText

namespace Cshell

open OptionWords

/-! ### The text of a program -/

/-- The text of a call of a builtin. -/
def builtinText (w : World) (depth : ℕ) (cmd : Str) (args : List Str) : Str :=
  if cmd = "reveal".toList then reveal w depth args
  else if cmd = "peek".toList then peek w args
  else if cmd = "locate".toList then locate w args
  else []

def Event.text (w : World) (depth : ℕ) : Event → Str
  | .print msg => msg
  | .run cmd args => builtinText w depth cmd args
  | _ => []

/-- What the process that runs `t` writes; `ans` answers for the environment. -/
def written {α : Type} (w : World) (depth : ℕ) (ans : ∀ q, Answer q) (t : Shell α) : Str :=
  (t.exec ans).1.events.flatMap (Event.text w depth)

/-- The builtins of both paths, but for `hop`. -/
inductive Builtin
  | reveal
  | peek
  | locate
  deriving DecidableEq, Repr

def Builtin.name : Builtin → Str
  | .reveal => "reveal".toList
  | .peek => "peek".toList
  | .locate => "locate".toList

/-- A command in the foreground, without redirections and with nothing after it. -/
def alone (cmd : Str) (ws : List Str) : Job :=
  ⟨[⟨cmd :: ws, List.cons_ne_nil cmd ws, false, false, false⟩], [], cmd, cmd :: ws, [], [], false⟩

/-- `prev`: empty at first, then what `getcwd` gave. -/
abbrev Prev := { p : Str // p = [] ∨ p.head? = some '/' }

section Written

variable (w : World) (depth : ℕ) (ans : ∀ q, Answer q) (prev : Str) (ws : List Str)

theorem written_stage_locate :
    written w depth ans (execBuiltin "locate".toList ("locate".toList :: ws) prev) =
      locate w (ws.takeWhile (!isDash ·)) :=
  List.append_nil (locate w (ws.takeWhile (!isDash ·)))

theorem written_alone_locate :
    written w depth ans (command (alone "locate".toList ws) prev) =
      if ws = [] then "locate: invalid syntax\n".toList else locate w (ws.takeWhile (!isDash ·)) := by
  cases ws with
  | nil => rfl
  | cons a ws => exact List.append_nil (locate w ((a :: ws).takeWhile (!isDash ·)))

theorem written_stage_peek :
    written w depth ans (execBuiltin "peek".toList ("peek".toList :: ws) prev) =
      peek w ("peek".toList :: ws) :=
  List.append_nil (peek w ("peek".toList :: ws))

theorem written_alone_peek :
    written w depth ans (command (alone "peek".toList ws) prev) =
      if peekValid ("peek".toList :: ws) then peek w (peekArgs ("peek".toList :: ws))
      else peekSyntax := by
  have h : command (alone "peek".toList ws) prev =
      .emit (.own (alone "peek".toList ws).line prev) (if !peekValid ("peek".toList :: ws) then
        .emit (.print peekSyntax) (.ret .ret)
      else .emit (.run "peek".toList (peekArgs ("peek".toList :: ws))) (.ret (.next [] prev))) := rfl
  rw [h]
  cases peekValid ("peek".toList :: ws) with
  | false => rfl
  | true => exact List.append_nil (peek w (peekArgs ("peek".toList :: ws)))

theorem written_stage_reveal :
    written w depth ans (execBuiltin "reveal".toList ("reveal".toList :: ws) prev) =
      reveal w depth ("reveal".toList :: if ws = [] then [['.']] else ws) := by
  cases ws with
  | nil => exact List.append_nil (reveal w depth ["reveal".toList, ['.']])
  | cons a ws => exact List.append_nil (reveal w depth ("reveal".toList :: a :: ws))

theorem written_alone_reveal :
    written w depth ans (command (alone "reveal".toList ws) prev) =
      if ws = [] then reveal w depth ["reveal".toList, ['.']]
      else
        match revealOptions ("reveal".toList :: ws) prev with
        | none => noSuchDirectory
        | some (args, k) => if k + 1 < args.length then revealSyntax else reveal w depth args := by
  cases ws with
  | nil => exact List.append_nil (reveal w depth ["reveal".toList, ['.']])
  | cons a ws =>
    have h : command (alone "reveal".toList (a :: ws)) prev =
        .emit (.own (alone "reveal".toList (a :: ws)).line prev)
          (match revealOptions ("reveal".toList :: a :: ws) prev with
        | none => .emit (.print noSuchDirectory) (.ret (.next [] prev))
        | some (args, k) =>
          if k + 1 < args.length then .emit (.print revealSyntax) (.ret (.next [] prev))
          else .emit (.run "reveal".toList args) (.ret (.next [] prev))) := rfl
    rw [h, if_neg (List.cons_ne_nil a ws)]
    cases revealOptions ("reveal".toList :: a :: ws) prev with
    | none => rfl
    | some r =>
      obtain ⟨args, k⟩ := r
      dsimp only
      split
      · rfl
      · exact List.append_nil (reveal w depth args)

end Written

/-! ### Where the paths agree -/

/-- `reveal`: by the first word that is not an option.  Unless it is a `-`, too many
operands are an error on both paths only when the letters are known.  A `-` without
a previous directory is an error, as is the listing of a directory that cannot be
read.  Otherwise the one path lists the previous directory, or has an operand too many,
where the other lists the working directory or its operand. -/
def RevealSame (w : World) (prev : Str) (ws : List Str) : Prop :=
  let options := ws.takeWhile isDash
  let operands := ws.dropWhile isDash
  let front := ws.takeWhile isOption
  if (ws.dropWhile isOption).head? ≠ some ['-'] then
    operands.length ≤ 1 ∨ Known revealLetter options
  else if prev = [] then
    Known revealLetter options ∧ operands.length ≤ 1 ∧ w.scandir (operands.headD ['.']) = none
  else if front.length + 2 < ws.length then Known revealLetter options ∧ 2 ≤ operands.length
  else
    ¬ Known revealLetter front ∨
      ws.length = front.length + 1 ∧ LooksSame w (revealFlags front) prev

/-- `peek`: there is an operand and no option after it, or an unknown letter and no
operand; or the one path prints of the files what the other has as its message. -/
def PeekSame (w : World) (ws : List Str) : Prop :=
  let options := ws.takeWhile isOption
  let operands := ws.dropWhile isOption
  (if operands = [] then ¬ Known peekLetter options else ∀ a ∈ operands, isOption a = false) ∨
    (Known peekLetter options ∧ hasLetter 'n' options = false ∧
      shownLines w (hasLetter 'r' options) w.stdin (if operands = [] then [['-']] else operands) =
        ["peek: invalid syntax".toList])

/-- The argument vectors for which the two paths print the same. -/
def SameText (w : World) (prev : Str) (ws : List Str) : Builtin → Prop
  | .reveal => RevealSame w prev ws
  | .peek => PeekSame w ws
  | .locate => ws ≠ []

/-! ### Options -/

theorem isOption_eq_false {a : Str} : isOption a = false ↔ isDash a = false ∨ a = ['-'] := by
  cases h : isDash a <;> simp [isOption, h]

theorem isDash_of_isOption {a : Str} (h : isOption a = true) : isDash a = true :=
  (Bool.and_eq_true_iff.mp h).1

theorem skipOptions_eq (ws : List Str) :
    skipOptions ws =
      ((ws.takeWhile isOption).length, decide ((ws.dropWhile isOption).head? = some ['-'])) := by
  induction ws with
  | nil => rfl
  | cons a ws ih =>
    rw [skipOptions, ih]
    by_cases ha : isOption a = true
    · have hne : a ≠ ['-'] := by
        rintro rfl
        exact absurd ha (by decide)
      simp [isDash_of_isOption ha, hne, List.takeWhile_cons_of_pos ha, List.dropWhile_cons_of_pos ha]
    · rw [List.takeWhile_cons_of_neg ha, List.dropWhile_cons_of_neg ha]
      rcases isOption_eq_false.mp (by simpa using ha) with hd | rfl
      · have hne : a ≠ ['-'] := by
          rintro rfl
          exact absurd hd (by decide)
        simp [hd, hne]
      · rfl

/-- Without a `-` among them, the words of `reveal` that start with a dash are its
options. -/
theorem takeWhile_isDash {ws : List Str} (h : (ws.dropWhile isOption).head? ≠ some ['-']) :
    ws.takeWhile isDash = ws.takeWhile isOption ∧ ws.dropWhile isDash = ws.dropWhile isOption := by
  induction ws with
  | nil => exact ⟨rfl, rfl⟩
  | cons a ws ih =>
    by_cases ha : isOption a = true
    · rw [List.dropWhile_cons_of_pos ha] at h
      have hd := isDash_of_isOption ha
      simp only [List.takeWhile_cons_of_pos ha, List.dropWhile_cons_of_pos ha,
        List.takeWhile_cons_of_pos hd, List.dropWhile_cons_of_pos hd]
      exact ⟨congrArg (a :: ·) (ih h).1, (ih h).2⟩
    · rw [List.dropWhile_cons_of_neg ha] at h
      have hd : ¬ isDash a = true := by
        intro hd
        rcases isOption_eq_false.mp (by simpa using ha) with hf | rfl
        · rw [hf] at hd
          cases hd
        · exact h rfl
      simp only [List.takeWhile_cons_of_neg ha, List.dropWhile_cons_of_neg ha,
        List.takeWhile_cons_of_neg hd, List.dropWhile_cons_of_neg hd, and_self]

/-- The words up to a `-` behind the options. -/
theorem eq_append_dash {ws : List Str} (h : (ws.dropWhile isOption).head? = some ['-']) :
    ∃ tl, ws = ws.takeWhile isOption ++ ['-'] :: tl := by
  refine ⟨(ws.dropWhile isOption).tail, ?_⟩
  conv_lhs => rw [← List.takeWhile_append_dropWhile (p := isOption) (l := ws)]
  rw [← List.eq_cons_of_mem_head? h]

/-- An option word has a letter, so known ones set a flag. -/
theorem long_revealFlags {os : List Str} (hos : ∀ a ∈ os, isOption a = true)
    (h : Known revealLetter os) (hne : os ≠ []) : (revealFlags os).long = true := by
  obtain ⟨a, as, rfl⟩ := List.exists_cons_of_ne_nil hne
  obtain ⟨hd, hn⟩ := Bool.and_eq_true_iff.mp (hos a List.mem_cons_self)
  match a with
  | [] => exact absurd hd (by decide)
  | [x] =>
    have hx : x = '-' := by simpa [isDash] using hd
    simp [hx] at hn
  | x :: y :: ys =>
    obtain ⟨g, hg⟩ := Option.isSome_iff_exists.mp
      (h _ List.mem_cons_self y (by simp : y ∈ (x :: y :: ys).tail))
    rcases twoLetters_cases hg with ⟨rfl, -⟩ | ⟨rfl, -⟩
    · simp [RevealFlags.long, revealFlags, hasLetter]
    · simp [RevealFlags.long, revealFlags, hasLetter]

/-! ### reveal -/

section Reveal

variable {w : World} {depth : ℕ} {cmd : Str} {ws : List Str}

theorem invalidOption_ne {c : Char} :
    invalidOption "cshell".toList c ≠ revealSyntax ∧
      invalidOption "cshell".toList c ≠ noSuchDirectory := by
  refine ⟨fun h => ?_, fun h => ?_⟩
  · have hc : some 'c' = some 'r' := congrArg List.head? h
    exact absurd hc (by decide)
  · have hc : some 'c' = some 'r' := congrArg List.head? h
    exact absurd hc (by decide)

theorem plainName_cases (ws : List Str) : plainName ws = spacedName ∨ plainName ws = joinedName := by
  unfold plainName
  split
  · exact .inl rfl
  · exact .inr rfl

/-- A call prints that there is no such directory. -/
theorem reveal_eq_noSuchDirectory_iff (hws : ws ≠ []) :
    reveal w (depth + 1) (cmd :: ws) = noSuchDirectory ↔
      Known revealLetter (ws.takeWhile isDash) ∧ (ws.dropWhile isDash).length ≤ 1 ∧
        w.scandir ((ws.dropWhile isDash).headD ['.']) = none := by
  by_cases hk : Known revealLetter (ws.takeWhile isDash)
  · by_cases hr : (ws.dropWhile isDash).length ≤ 1
    · obtain ⟨again, ha, h⟩ := reveal_known hws hk hr
      rw [h, listing_eq_noSuchDirectory_iff (plainName_cases ws) ha]
      simp [hk, hr]
    · rw [reveal_operands hk (by omega)]
      have hne : revealSyntax ≠ noSuchDirectory := by decide
      simp [hr, hne]
  · obtain ⟨c, h⟩ := reveal_unknown hk
    rw [h]
    exact iff_of_false invalidOption_ne.2 fun hr => hk hr.1

/-- A call with more than one word prints that the syntax is wrong. -/
theorem reveal_eq_revealSyntax_iff (hws : 2 ≤ ws.length) :
    reveal w (depth + 1) (cmd :: ws) = revealSyntax ↔
      Known revealLetter (ws.takeWhile isDash) ∧ 2 ≤ (ws.dropWhile isDash).length := by
  by_cases hk : Known revealLetter (ws.takeWhile isDash)
  · by_cases hr : 2 ≤ (ws.dropWhile isDash).length
    · simp [reveal_operands hk hr, hk, hr]
    · obtain ⟨again, ha, h⟩ :=
        reveal_known (List.ne_nil_of_length_pos (by omega)) hk (by omega)
      have hplain : plainName ws = joinedName := if_neg (by omega)
      rw [h, hplain]
      simp [hr, listing_ne_revealSyntax ha]
  · obtain ⟨c, h⟩ := reveal_unknown hk
    rw [h]
    exact iff_of_false invalidOption_ne.1 fun hr => hk hr.1

/-- A `-` at the end, against the previous directory in its place. -/
theorem reveal_dash_iff {os : List Str} (hos : ∀ a ∈ os, isOption a = true)
    (hk : Known revealLetter os) {prev : Str} (hprev : prev.head? = some '/') :
    reveal w (depth + 1) (cmd :: (os ++ [['-']])) = reveal w (depth + 1) (cmd :: (os ++ [prev])) ↔
      LooksSame w (revealFlags os) prev := by
  have hdash : ∀ a ∈ os, isDash a = true := fun a ha => isDash_of_isOption (hos a ha)
  have hp : isDash prev = false := by simp [isDash, hprev]
  have htake : (os ++ [['-']]).takeWhile isDash = os ++ [['-']] := by
    rw [List.takeWhile_append_of_pos hdash]
    rfl
  have hdrop : (os ++ [['-']]).dropWhile isDash = [] := by
    rw [List.dropWhile_append_of_pos hdash]
    rfl
  have htake' : (os ++ [prev]).takeWhile isDash = os := by
    rw [List.takeWhile_append_of_pos hdash, List.takeWhile_cons_of_neg (by simp [hp]), List.append_nil]
  have hdrop' : (os ++ [prev]).dropWhile isDash = [prev] := by
    rw [List.dropWhile_append_of_pos hdash, List.dropWhile_cons_of_neg (by simp [hp])]
  have hk' : Known revealLetter ((os ++ [['-']]).takeWhile isDash) := by
    rw [htake]
    intro a ha c hc
    rcases List.mem_append.mp ha with ha | ha
    · exact hk a ha c hc
    · rw [List.mem_singleton.mp ha] at hc
      simp at hc
  have hflags : revealFlags (os ++ [['-']]) = revealFlags os := by simp [revealFlags, hasLetter]
  have hname : plainName (os ++ [['-']]) = plainName (os ++ [prev]) := by simp [plainName]
  have hne : ∀ x : Str, os ++ [x] ≠ [] := fun x =>
    List.append_ne_nil_of_right_ne_nil os (List.cons_ne_nil x [])
  obtain ⟨again, ha, h⟩ := reveal_known (hne ['-']) hk' (by simp [hdrop])
  obtain ⟨again', ha', h'⟩ := reveal_known (hne prev) (by rwa [htake']) (by simp [hdrop'])
  rw [h, h', htake, hdrop, htake', hdrop', hflags, hname]
  refine listing_eq_iff hprev ?_ ha ha'
  -- options in front of it have set a flag
  by_cases hne : os = []
  · subst hne
    exact .inl rfl
  · have hlen : ¬ (os ++ [prev]).length = 1 := by
      have := List.length_pos_of_ne_nil hne
      rw [List.length_append]
      simp
      omega
    exact .inr ⟨if_neg hlen, long_revealFlags hos hk hne⟩

/-- The arguments of `reveal` after the option loop of `process_cmd`, without a `-`. -/
theorem revealOptions_operand {prev : Str} (h : (ws.dropWhile isOption).head? ≠ some ['-']) :
    revealOptions (cmd :: ws) prev = some (cmd :: ws, 1 + (ws.takeWhile isOption).length) := by
  simp [revealOptions, skipOptions_eq, h]

/-- With a `-`, and no previous directory. -/
theorem revealOptions_none (h : (ws.dropWhile isOption).head? = some ['-']) :
    revealOptions (cmd :: ws) [] = none := by
  simp [revealOptions, skipOptions_eq, h]

/-- With a `-`: the previous directory takes its place. -/
theorem revealOptions_dash {os tl : List Str} {prev : Str} (hos : ∀ a ∈ os, isOption a = true)
    (hprev : prev ≠ []) :
    revealOptions (cmd :: (os ++ ['-'] :: tl)) prev =
      some (cmd :: (os ++ prev :: tl), os.length + 2) := by
  have hskip : skipOptions (os ++ ['-'] :: tl) = (os.length, true) := by
    rw [skipOptions_eq, List.takeWhile_append_of_pos hos, List.dropWhile_append_of_pos hos]
    simp [isOption]
  have hset : (cmd :: (os ++ ['-'] :: tl)).set (1 + os.length) prev = cmd :: (os ++ prev :: tl) := by
    rw [Nat.add_comm, List.set_cons_succ, List.set_append_right _ _ (Nat.le_refl _), Nat.sub_self]
    rfl
  rw [revealOptions, List.tail_cons, hskip]
  simp only [if_true, if_neg hprev, hset, Option.some.injEq, Prod.mk.injEq, true_and]
  omega

/-- What both paths print when the previous directory takes the place of a `-`. -/
theorem reveal_prev_iff {os tl : List Str} (hos : ∀ a ∈ os, isOption a = true) {prev : Str}
    (hprev : prev.head? = some '/') (htl : tl.length ≤ 1) :
    reveal w (depth + 1) (cmd :: (os ++ ['-'] :: tl)) =
        reveal w (depth + 1) (cmd :: (os ++ prev :: tl)) ↔
      ¬ Known revealLetter os ∨ tl = [] ∧ LooksSame w (revealFlags os) prev := by
  have hdash : ∀ a ∈ os, isDash a = true := fun a ha => isDash_of_isOption (hos a ha)
  by_cases hk : Known revealLetter os
  · match tl with
    | [] =>
      rw [reveal_dash_iff hos hk hprev]
      simp [hk]
    | [x] =>
      -- the one path has an operand too many, the other lists a directory
      have hp : isDash prev = false := by simp [isDash, hprev]
      have htake : (os ++ [prev, x]).takeWhile isDash = os := by
        rw [List.takeWhile_append_of_pos hdash, List.takeWhile_cons_of_neg (by simp [hp]),
          List.append_nil]
      have hdrop : (os ++ [prev, x]).dropWhile isDash = [prev, x] := by
        rw [List.dropWhile_append_of_pos hdash, List.dropWhile_cons_of_neg (by simp [hp])]
      have hfew : ¬ 2 ≤ ((os ++ [['-'], x]).dropWhile isDash).length := by
        rw [List.dropWhile_append_of_pos hdash, List.dropWhile_cons_of_pos rfl]
        have hle := (List.dropWhile_suffix isDash (l := [x])).length_le
        rw [List.length_singleton] at hle
        omega
      have hsyn : reveal w (depth + 1) (cmd :: (os ++ [prev, x])) = revealSyntax :=
        reveal_operands (by rwa [htake]) (by simp [hdrop])
      rw [hsyn, reveal_eq_revealSyntax_iff (by simp)]
      simp [hk, hfew]
    | _ :: _ :: _ => simp at htl
  · obtain ⟨c, hc⟩ : ∃ c, ∀ r,
        reveal w (depth + 1) (cmd :: (os ++ r)) = invalidOption "cshell".toList c :=
      reveal_append_unknown hdash hk
    rw [hc, hc]
    simp [hk]

end Reveal

/-- The two paths when a `-` stands for the previous directory. -/
theorem reveal_same_prev {w : World} {depth : ℕ} {ws : List Str} {prev : Str}
    (hd : (ws.dropWhile isOption).head? = some ['-']) (hprev : prev.head? = some '/') :
    (reveal w (depth + 1) ("reveal".toList :: ws) =
      match revealOptions ("reveal".toList :: ws) prev with
      | none => noSuchDirectory
      | some (args, k) =>
        if k + 1 < args.length then revealSyntax else reveal w (depth + 1) args) ↔
      RevealSame w prev ws := by
  have hos : ∀ a ∈ ws.takeWhile isOption, isOption a = true := fun a ha => List.mem_takeWhile_imp ha
  have hne : prev ≠ [] := by
    rintro rfl
    simp at hprev
  obtain ⟨tl, htl⟩ := eq_append_dash hd
  have hlen : ws.length = (ws.takeWhile isOption).length + tl.length + 1 := by
    conv_lhs => rw [htl]
    rw [List.length_append, List.length_cons]
    omega
  have hopt : revealOptions ("reveal".toList :: ws) prev =
      some ("reveal".toList :: (ws.takeWhile isOption ++ prev :: tl),
        (ws.takeWhile isOption).length + 2) := by
    conv_lhs => rw [htl]
    exact revealOptions_dash hos hne
  have hargs : ("reveal".toList :: (ws.takeWhile isOption ++ prev :: tl)).length = ws.length + 1 := by
    rw [hlen, List.length_cons, List.length_append, List.length_cons]
    omega
  rw [hopt]
  dsimp only
  rw [hargs]
  -- two words behind the `-` are refused by the shell, before `reveal` is called
  by_cases hmany : (ws.takeWhile isOption).length + 2 < ws.length
  · rw [if_pos (by omega), reveal_eq_revealSyntax_iff (by omega)]
    simp [RevealSame, hd, hne, hmany]
  · rw [if_neg (by omega)]
    have htail : tl = [] ↔ ws.length = (ws.takeWhile isOption).length + 1 := by
      rw [← List.length_eq_zero_iff]
      omega
    have hiff : reveal w (depth + 1) ("reveal".toList :: (ws.takeWhile isOption ++ ['-'] :: tl)) =
          reveal w (depth + 1) ("reveal".toList :: (ws.takeWhile isOption ++ prev :: tl)) ↔
        ¬ Known revealLetter (ws.takeWhile isOption) ∨
          tl = [] ∧ LooksSame w (revealFlags (ws.takeWhile isOption)) prev :=
      reveal_prev_iff hos hprev (by omega)
    rw [← htl, htail] at hiff
    rw [hiff]
    simp [RevealSame, hd, hne, hmany]

theorem reveal_same_iff (w : World) (depth : ℕ) (ans : ∀ q, Answer q) (prev : Prev)
    (ws : List Str) :
    written w (depth + 1) ans (execBuiltin "reveal".toList ("reveal".toList :: ws) prev.1) =
        written w (depth + 1) ans (command (alone "reveal".toList ws) prev.1) ↔
      RevealSame w prev.1 ws := by
  rw [written_stage_reveal, written_alone_reveal]
  by_cases hws : ws = []
  · subst hws
    simp [RevealSame]
  rw [if_neg hws, if_neg hws]
  by_cases hd : (ws.dropWhile isOption).head? = some ['-']
  · obtain ⟨prev, hprev⟩ := prev
    rcases hprev with rfl | hprev
    · rw [revealOptions_none hd, reveal_eq_noSuchDirectory_iff hws]
      simp [RevealSame, hd]
    · exact reveal_same_prev hd hprev
  · rw [revealOptions_operand hd]
    dsimp only
    obtain ⟨htake, hdrop⟩ := takeWhile_isDash hd
    have hlen : (ws.takeWhile isDash).length + (ws.dropWhile isDash).length = ws.length := by
      rw [← List.length_append, List.takeWhile_append_dropWhile]
    rw [← htake, List.length_cons]
    by_cases hr : (ws.dropWhile isDash).length ≤ 1
    · rw [if_neg (by omega)]
      simp [RevealSame, hd, hr]
    · rw [if_pos (by omega), reveal_eq_revealSyntax_iff (by omega)]
      have hr' : 2 ≤ (ws.dropWhile isDash).length := by omega
      simp [RevealSame, hd, hr, hr']

/-! ### peek -/

section Peek

variable {w : World} {ws : List Str}

theorem not_length_lt_two (cmd : Str) (hws : ws ≠ []) : ¬ (cmd :: ws).length < 2 := by
  have hpos := List.length_pos_of_ne_nil hws
  rw [List.length_cons]
  omega

theorem peekValid_eq (hws : ws ≠ []) :
    peekValid ("peek".toList :: ws) = (ws.dropWhile isOption).all fun a => !isOption a := by
  have hdrop : ws.drop (ws.takeWhile isOption).length = ws.dropWhile isOption := by
    have hw : ws = ws.takeWhile isOption ++ ws.dropWhile isOption :=
      List.takeWhile_append_dropWhile.symm
    exact (congrArg (List.drop (ws.takeWhile isOption).length) hw).trans List.drop_left
  have htest : ∀ a : Str, (!isDash a || decide (a = ['-'])) = !isOption a := by
    intro a
    simp [isOption]
  rw [peekValid, if_neg (not_length_lt_two _ hws), List.tail_cons, skipOptions_eq, Nat.add_comm,
    List.drop_succ_cons, hdrop]
  simp only [htest]

theorem peekArgs_eq (hws : ws ≠ []) :
    peekArgs ("peek".toList :: ws) =
      if ws.dropWhile isOption = [] then "peek".toList :: (ws ++ [['-']]) else "peek".toList :: ws := by
  have hsum : (ws.takeWhile isOption).length + (ws.dropWhile isOption).length = ws.length := by
    rw [← List.length_append, List.takeWhile_append_dropWhile]
  rw [peekArgs, if_neg (not_length_lt_two _ hws), List.tail_cons, skipOptions_eq, List.length_cons]
  by_cases hd : ws.dropWhile isOption = []
  · rw [if_pos hd, if_pos (by rw [hd, List.length_nil] at hsum; omega)]
    rfl
  · have hpos := List.length_pos_of_ne_nil hd
    rw [if_neg hd, if_neg (by omega)]

/-- Without operands, the path of `process_cmd` puts in a `-`. -/
theorem peek_alone_options (h : ws.dropWhile isOption = []) :
    (if peekValid ("peek".toList :: ws) then peek w (peekArgs ("peek".toList :: ws)) else peekSyntax) =
      peek w ("peek".toList :: (ws ++ [['-']])) := by
  by_cases hws : ws = []
  · subst hws
    rfl
  · rw [peekValid_eq hws, peekArgs_eq hws, if_pos h, h]
    rfl

/-- With operands, it leaves the words as they are and looks for an option among them. -/
theorem peek_alone_operands (h : ws.dropWhile isOption ≠ []) :
    (if peekValid ("peek".toList :: ws) then peek w (peekArgs ("peek".toList :: ws)) else peekSyntax) =
      if ∀ a ∈ ws.dropWhile isOption, isOption a = false then peek w ("peek".toList :: ws)
      else peekSyntax := by
  have hws : ws ≠ [] := by
    rintro rfl
    exact h rfl
  rw [peekValid_eq hws, peekArgs_eq hws, if_neg h]
  by_cases hall : ∀ a ∈ ws.dropWhile isOption, isOption a = false
  · rw [if_pos hall, if_pos (List.all_eq_true.mpr fun a ha => by simp [hall a ha])]
  · rw [if_neg hall, if_neg]
    intro hv
    refine hall fun a ha => ?_
    simpa using List.all_eq_true.mp hv a ha

/-- What the operands print is the message of the other path. -/
theorem peek_eq_peekSyntax_iff (hr : ws.dropWhile isOption ≠ []) :
    peek w ("peek".toList :: ws) = peekSyntax ↔
      Known peekLetter (ws.takeWhile isOption) ∧ hasLetter 'n' (ws.takeWhile isOption) = false ∧
        shownLines w (hasLetter 'r' (ws.takeWhile isOption)) w.stdin (ws.dropWhile isOption) =
          ["peek: invalid syntax".toList] := by
  by_cases hk : Known peekLetter (ws.takeWhile isOption)
  · rw [peek_known hk hr, peekOperands_eq_syntax_iff]
    simp only [hk, true_and]
    rfl
  · obtain ⟨c, hc⟩ : ∃ c, ∀ r, peek w ("peek".toList :: (ws.takeWhile isOption ++ r)) =
        invalidOption "peek".toList c :=
      peek_append_unknown (fun a ha => List.mem_takeWhile_imp ha) hk
    have hpeek : peek w ("peek".toList :: ws) = invalidOption "peek".toList c := by
      conv_lhs => rw [← List.takeWhile_append_dropWhile (p := isOption) (l := ws)]
      exact hc _
    rw [hpeek]
    refine iff_of_false (fun h => ?_) fun h => hk h.1
    -- the two messages differ after `peek: invalid `
    have h14 : some 'o' = some 's' := congrArg (·[14]?) h
    exact absurd h14 (by decide)

end Peek

theorem peek_same_iff (w : World) (depth : ℕ) (ans : ∀ q, Answer q) (prev : Str)
    (ws : List Str) :
    written w depth ans (execBuiltin "peek".toList ("peek".toList :: ws) prev) =
        written w depth ans (command (alone "peek".toList ws) prev) ↔
      PeekSame w ws := by
  rw [written_stage_peek, written_alone_peek]
  by_cases hr : ws.dropWhile isOption = []
  · have hall : ws.takeWhile isOption = ws := by
      have happ := List.takeWhile_append_dropWhile (p := isOption) (l := ws)
      rwa [hr, List.append_nil] at happ
    have hos : ∀ a ∈ ws, isOption a = true := List.dropWhile_eq_nil_iff.mp hr
    rw [peek_alone_options hr]
    simp only [PeekSame, hr, hall, if_true]
    by_cases hk : Known peekLetter ws
    · -- the operand put in is standard input
      have htake : (ws ++ [['-']]).takeWhile isOption = ws := by
        rw [List.takeWhile_append_of_pos hos]
        exact List.append_nil ws
      have hdrop : (ws ++ [['-']]).dropWhile isOption = [['-']] := by
        rw [List.dropWhile_append_of_pos hos]
        rfl
      rw [peek_options (by decide) (by rwa [hall]) hr, eq_comm,
        peek_eq_peekSyntax_iff (by rw [hdrop]; exact List.cons_ne_nil _ _), htake, hdrop]
      simp [hk]
    · obtain ⟨c, hc⟩ : ∃ c, ∀ r, peek w ("peek".toList :: (ws ++ r)) =
          invalidOption "peek".toList c := peek_append_unknown hos hk
      have hnil := hc []
      rw [List.append_nil] at hnil
      rw [hnil, hc]
      simp [hk]
  · rw [peek_alone_operands hr]
    simp only [PeekSame, if_neg hr]
    by_cases hall : ∀ a ∈ ws.dropWhile isOption, isOption a = false
    · rw [if_pos hall]
      exact iff_of_true rfl (.inl hall)
    · rw [if_neg hall, peek_eq_peekSyntax_iff hr]
      exact (or_iff_right hall).symm

/-! ### locate -/

theorem locate_same_iff (w : World) (depth : ℕ) (ans : ∀ q, Answer q) (prev : Str)
    (ws : List Str) :
    written w depth ans (execBuiltin "locate".toList ("locate".toList :: ws) prev) =
        written w depth ans (command (alone "locate".toList ws) prev) ↔
      ws ≠ [] := by
  rw [written_stage_locate, written_alone_locate]
  by_cases hws : ws = []
  · subst hws
    rw [if_pos rfl]
    refine iff_of_false (fun h => ?_) fun h => h rfl
    rw [List.takeWhile_nil, locate] at h
    cases hp : w.path with
    | none =>
      rw [hp] at h
      have hc : some 'c' = some 'l' := congrArg List.head? h
      exact absurd hc (by decide)
    | some p =>
      rw [hp] at h
      exact absurd h.symm (List.cons_ne_nil _ _)
  · rw [if_neg hws]
    exact iff_of_true rfl hws

/-! ### The paths -/

/-- The text of a builtin in a pipeline is that of the same command alone exactly when
`SameText` holds of its arguments. -/
theorem stage_text_iff (w : World) (depth : ℕ) (ans : ∀ q, Answer q) (prev : Prev)
    (b : Builtin) (ws : List Str) :
    written w (depth + 1) ans (execBuiltin b.name (b.name :: ws) prev.1) =
        written w (depth + 1) ans (command (alone b.name ws) prev.1) ↔
      SameText w prev.1 ws b := by
  cases b with
  | reveal => exact reveal_same_iff w depth ans prev ws
  | peek => exact peek_same_iff w (depth + 1) ans prev.1 ws
  | locate => exact locate_same_iff w (depth + 1) ans prev.1 ws

/-- The working directory holds the file `a`, the directory `/p` the file `b`. -/
def twoDirs : World where
  scandir d := if d = ['.'] then some [['a']] else if d = ['/', 'p'] then some [['b']] else none
  isDir _ := false
  contents _ := none
  isExec _ := false
  cwd := ⟨['/'], rfl⟩
  path := some "/bin".toList
  stdin := ["hello\n".toList]
  names d l h x hx := by
    split at h
    · cases h
      rw [List.mem_singleton.mp hx]
      decide
    · split at h
      · cases h
        rw [List.mem_singleton.mp hx]
        decide
      · cases h

/-- Every call succeeds, and `hop` stays where it is. -/
def granted : ∀ q, Answer q
  | .fork | .pipe | .openRead _ | .openWrite _ _ | .lookup _ => true
  | .wait _ => .exited 0
  | .hop _ prev => prev

/-- `peek`, `locate` and `reveal -`, first as a stage and then alone. -/
theorem stage_text_differs :
    (written twoDirs 1 granted (execBuiltin "peek".toList ["peek".toList] "/p".toList) =
        "peek: invalid syntax\n".toList ∧
      written twoDirs 1 granted (command (alone "peek".toList []) "/p".toList) =
        "hello\n".toList) ∧
    (written twoDirs 1 granted (execBuiltin "locate".toList ["locate".toList] "/p".toList) = [] ∧
      written twoDirs 1 granted (command (alone "locate".toList []) "/p".toList) =
        "locate: invalid syntax\n".toList) ∧
    (written twoDirs 1 granted (execBuiltin "reveal".toList ["reveal".toList, ['-']] "/p".toList) =
        "a \n".toList ∧
      written twoDirs 1 granted
          (command (alone "reveal".toList [['-']]) "/p".toList) =
        "b \n".toList) := by
  decide +kernel

end Cshell
