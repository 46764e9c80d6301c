/-
Option words of a command line.

The words in front of the operands are read letter by letter.  A letter sets a
flag or is unknown, and the first unknown letter ends the reading.  Which
letters there are, and which words count as option words, is the command's
own.

* `words_known`, `words_flag` — words of known letters are read to their end,
  and set the flags whose letters they have;
* `words_unknown`, `words_append_unknown` — otherwise the answer is an unknown
  letter, and what follows the words plays no part in which.
-/
import Mathlib.Data.List.Basic
import Mathlib.Data.List.TakeWhile

namespace OptionWords

variable {F : Type} (set : Char → Option (F → F)) (isOption : List Char → Bool)

/-- The letters of a word: the flags they leave, or the first unknown one. -/
def letters : List Char → F → Except Char F
  | [], f => .ok f
  | c :: cs, f =>
    match set c with
    | some g => letters cs (g f)
    | none => .error c

/-- The option words in front: the flags and the words left, or the first unknown
letter. -/
def words : List (List Char) → F → Except Char (F × List (List Char))
  | [], f => .ok (f, [])
  | a :: as, f =>
    if isOption a then
      match letters set a.tail f with
      | .ok f' => words as f'
      | .error c => .error c
    else .ok (f, a :: as)

/-- The letters of a command that has two. -/
def twoLetters (x y : Char) (f g : F → F) (c : Char) : Option (F → F) :=
  if c = x then some f else if c = y then some g else none

/-- Every letter of the words is known. -/
def Known (as : List (List Char)) : Prop := ∀ a ∈ as, ∀ c ∈ a.tail, (set c).isSome = true

instance (as : List (List Char)) : Decidable (Known set as) :=
  decidable_of_iff ((as.all fun a => a.tail.all fun c => (set c).isSome) = true) <| by
    simp only [Known, List.all_eq_true]

variable {set isOption}

theorem twoLetters_cases {x y c : Char} {f g k : F → F} (h : twoLetters x y f g c = some k) :
    c = x ∧ k = f ∨ c = y ∧ k = g := by
  unfold twoLetters at h
  split at h
  · rename_i hc
    exact .inl ⟨hc, (Option.some.inj h).symm⟩
  · split at h
    · rename_i hc
      exact .inr ⟨hc, (Option.some.inj h).symm⟩
    · cases h

theorem letters_known {cs : List Char} (h : ∀ c ∈ cs, (set c).isSome = true) (f : F) :
    ∃ f', letters set cs f = .ok f' := by
  induction cs generalizing f with
  | nil => exact ⟨f, rfl⟩
  | cons c cs ih =>
    obtain ⟨g, hg⟩ := Option.isSome_iff_exists.mp (h c List.mem_cons_self)
    obtain ⟨f', hf⟩ := ih (fun x hx => h x (List.mem_cons_of_mem c hx)) (g f)
    exact ⟨f', by simp only [letters, hg, hf]⟩

/-- The letter at which the reading ends does not depend on the flags. -/
theorem letters_unknown {cs : List Char} (h : ¬ ∀ c ∈ cs, (set c).isSome = true) :
    ∃ c, ∀ f, letters set cs f = .error c := by
  induction cs with
  | nil => simp at h
  | cons c cs ih =>
    cases hc : set c with
    | none => exact ⟨c, fun f => by simp only [letters, hc]⟩
    | some g =>
      have ht : ¬ ∀ x ∈ cs, (set x).isSome = true := by
        intro ht
        refine h fun x hx => ?_
        rcases List.mem_cons.mp hx with rfl | hx
        · rw [hc]
          rfl
        · exact ht x hx
      obtain ⟨x, hx⟩ := ih ht
      exact ⟨x, fun f => by simp only [letters, hc, hx]⟩

theorem Known.of_cons {a : List Char} {as : List (List Char)} (h : Known set (a :: as)) :
    Known set as := fun b hb => h b (List.mem_cons_of_mem a hb)

/-- Words of known letters, and what follows them. -/
theorem words_append {o : List (List Char)} (ho : ∀ a ∈ o, isOption a = true) (h : Known set o)
    (f : F) :
    ∃ f', ∀ r, words set isOption (o ++ r) f = words set isOption r f' := by
  induction o generalizing f with
  | nil => exact ⟨f, fun r => rfl⟩
  | cons a o ih =>
    obtain ⟨f₁, h₁⟩ := letters_known (h a List.mem_cons_self) f
    obtain ⟨f₂, h₂⟩ := ih (fun b hb => ho b (List.mem_cons_of_mem a hb)) h.of_cons f₁
    refine ⟨f₂, fun r => ?_⟩
    rw [List.cons_append, words, if_pos (ho a List.mem_cons_self), h₁]
    exact h₂ r

/-- Words with an unknown letter: what follows them is not looked at. -/
theorem words_append_unknown {o : List (List Char)} (ho : ∀ a ∈ o, isOption a = true)
    (h : ¬ Known set o) : ∃ c, ∀ r f, words set isOption (o ++ r) f = .error c := by
  induction o with
  | nil => exact absurd (fun a ha => absurd ha (by simp)) h
  | cons a o ih =>
    by_cases ha : ∀ c ∈ a.tail, (set c).isSome = true
    · have ht : ¬ Known set o := by
        intro ht
        refine h fun b hb => ?_
        rcases List.mem_cons.mp hb with rfl | hb
        · exact ha
        · exact ht b hb
      obtain ⟨c, hc⟩ := ih (fun b hb => ho b (List.mem_cons_of_mem a hb)) ht
      refine ⟨c, fun r f => ?_⟩
      obtain ⟨f', hf⟩ := letters_known ha f
      rw [List.cons_append, words, if_pos (ho a List.mem_cons_self), hf]
      exact hc r f'
    · obtain ⟨c, hc⟩ := letters_unknown ha
      refine ⟨c, fun r f => ?_⟩
      rw [List.cons_append, words, if_pos (ho a List.mem_cons_self), hc]

/-- A flag that exactly one letter sets, after the letters of a word. -/
theorem letters_flag {b : F → Bool} {x : Char}
    (hx : ∀ c g, set c = some g → ∀ f, b (g f) = (b f || c == x)) {cs : List Char} {f f' : F}
    (h : letters set cs f = .ok f') : b f' = (b f || cs.contains x) := by
  induction cs generalizing f with
  | nil =>
    cases h
    simp
  | cons c cs ih =>
    rw [letters] at h
    split at h
    · rename_i g hg
      rw [ih h, hx c g hg, List.contains_cons, Bool.or_assoc, Bool.beq_comm]
    · cases h

/-- Some word has the letter. -/
def hasLetter (x : Char) (as : List (List Char)) : Bool := as.any fun a => a.tail.contains x

/-- The same, after all the option words. -/
theorem words_flag {b : F → Bool} {x : Char}
    (hx : ∀ c g, set c = some g → ∀ f, b (g f) = (b f || c == x)) {as r : List (List Char)}
    {f f' : F} (h : words set isOption as f = .ok (f', r)) :
    b f' = (b f || hasLetter x (as.takeWhile isOption)) := by
  induction as generalizing f with
  | nil =>
    cases h
    simp [hasLetter]
  | cons a as ih =>
    rw [words] at h
    split at h
    · rename_i ha
      split at h
      · rename_i f₁ h₁
        rw [ih h, letters_flag hx h₁, List.takeWhile_cons_of_pos ha, hasLetter, hasLetter, List.any_cons,
          Bool.or_assoc]
      · cases h
    · rename_i ha
      cases h
      rw [List.takeWhile_cons_of_neg ha]
      simp [hasLetter]

/-- The option words are all known: they are read, and the rest is left. -/
theorem words_known {as : List (List Char)} (h : Known set (as.takeWhile isOption)) (f : F) :
    ∃ f', words set isOption as f = .ok (f', as.dropWhile isOption) := by
  obtain ⟨f', hf⟩ := words_append (fun a ha => List.mem_takeWhile_imp ha) h f
  refine ⟨f', ?_⟩
  conv_lhs => rw [← List.takeWhile_append_dropWhile (p := isOption) (l := as)]
  rw [hf]
  -- the rest does not start with an option word
  cases hr : as.dropWhile isOption with
  | nil => rfl
  | cons b bs =>
    have hb : isOption b = false := by
      have hne : as.dropWhile isOption ≠ [] := by simp [hr]
      have hhead := List.head_dropWhile_not isOption hne
      simpa [hr] using hhead
    simp [words, hb]

/-- Not all of them are known: the answer is an unknown letter. -/
theorem words_unknown {as : List (List Char)} (h : ¬ Known set (as.takeWhile isOption)) :
    ∃ c, ∀ f, words set isOption as f = .error c := by
  obtain ⟨c, hc⟩ := words_append_unknown (fun a ha => List.mem_takeWhile_imp ha) h
  refine ⟨c, fun f => ?_⟩
  rw [← List.takeWhile_append_dropWhile (p := isOption) (l := as)]
  exact hc _ f

end OptionWords
