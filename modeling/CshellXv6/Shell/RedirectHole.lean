/-
The redirection passes with one word replaced.

An ordinary word goes through `ext_in` and `ext_out` in the same way whatever its
text is: it stays an argument, or becomes a file name, or the command is in error
for every such word (`verdict_hole`).  A word that spells `<`, `>` or `>>` does not:
it is never among what the passes leave, and a command that was in error without it
stays in error (`verdict_redir_iff`).
-/
import CshellXv6.Shell.Redirect

namespace Cshell

/-! ### A pass with one word replaced -/

section Scan

variable {α : Type} {sel : Str → Option (Str → α)} {u v : Str}

/-- Where the word `u` goes in a pass over `xs ++ u :: ys`, whatever ordinary word it
is. -/
inductive ScanHole (sel : Str → Option (Str → α)) (xs ys : List Str) : Prop
  | fails : (∀ u, isRedir u = false → (scan sel (xs ++ u :: ys)).files = none) → ScanHole sel xs ys
  | kept (as bs : List Str) (fs : List α) : (∀ u, isRedir u = false →
      scan sel (xs ++ u :: ys) = ⟨as ++ u :: bs, some fs⟩) → ScanHole sel xs ys
  | target (as : List Str) (fs gs : List α) (x : Str) (f : Str → α) : sel x = some f →
      (∀ u, isRedir u = false → scan sel (xs ++ u :: ys) = ⟨as, some (fs ++ f u :: gs)⟩) →
      ScanHole sel xs ys

variable (hsel : ∀ a, isRedir a = false → sel a = none)

include hsel

/-- **An ordinary word is kept or is the target of an operator before it**, unless
the pass fails for every such word. -/
theorem scanHole (xs ys : List Str) : ScanHole sel xs ys := by
  induction xs using scan.induct sel with
  | case1 =>
    cases hf : (scan sel ys).files with
    | none =>
      refine .fails ?_
      intro u hu
      rw [List.nil_append, scan_cons_kept (hsel u hu)]
      exact hf
    | some fs =>
      refine .kept [] (scan sel ys).args fs ?_
      intro u hu
      rw [List.nil_append, scan_cons_kept (hsel u hu), hf]
      rfl
  | case2 x f hx =>
    -- the word is the target of `x`
    cases hf : (scan sel ys).files with
    | none =>
      refine .fails ?_
      intro u hu
      rw [List.singleton_append, scan_cons_target hx hu, hf]
      rfl
    | some fs =>
      refine .target (scan sel ys).args [] fs x f hx ?_
      intro u hu
      rw [List.singleton_append, scan_cons_target hx hu, hf]
      rfl
  | case3 x f hx t xs ht =>
    refine .fails ?_
    intro u _
    rw [List.cons_append, List.cons_append, scan_cons_redir hx ht]
  | case4 x f hx t xs ht ih =>
    have ht : isRedir t = false := by simpa using ht
    have hstep : ∀ u, scan sel (x :: t :: xs ++ u :: ys) =
        ⟨(scan sel (xs ++ u :: ys)).args, (scan sel (xs ++ u :: ys)).files.map (f t :: ·)⟩ :=
      fun u => scan_cons_target hx ht _
    cases ih with
    | fails h => exact .fails fun u hu => by rw [hstep, h u hu]; rfl
    | kept as bs fs h => exact .kept as bs (f t :: fs) fun u hu => by rw [hstep, h u hu]; rfl
    | target as fs gs y g hy h =>
      exact .target as (f t :: fs) gs y g hy fun u hu => by rw [hstep, h u hu]; rfl
  | case5 x xs hx ih =>
    have hstep : ∀ u, scan sel (x :: xs ++ u :: ys) =
        ⟨x :: (scan sel (xs ++ u :: ys)).args, (scan sel (xs ++ u :: ys)).files⟩ :=
      fun u => scan_cons_kept hx _
    cases ih with
    | fails h => exact .fails fun u hu => by rw [hstep]; exact h u hu
    | kept as bs fs h => exact .kept (x :: as) bs fs fun u hu => by rw [hstep, h u hu]; rfl
    | target as fs gs y g hy h =>
      exact .target (x :: as) fs gs y g hy fun u hu => by rw [hstep, h u hu]

/-- A pass that fails after a word that is no operator fails before it. -/
theorem scan_fails_cons {t : Str} (ht : isRedir t = false) {ys : List Str}
    (h : (scan sel (t :: ys)).files = none) : (scan sel ys).files = none := by
  rw [scan_cons_kept (hsel t ht)] at h
  exact h

/-- An operator in front of a list on which the pass fails. -/
theorem scan_fails_op {x : Str} {f : Str → α} (hx : sel x = some f) {ys : List Str}
    (h : (scan sel ys).files = none) : (scan sel (x :: ys)).files = none := by
  cases ys with
  | nil => rw [scan_cons_last hx]
  | cons t ys =>
    cases ht : isRedir t with
    | true => rw [scan_cons_redir hx ht]
    | false =>
      rw [scan_cons_target hx ht, scan_fails_cons hsel ht h]
      rfl

/-- A pass that fails with an ordinary word fails with an operator in its place. -/
theorem scan_fails_replace (hu : isRedir u = false) (hv : isRedir v = true) {xs ys : List Str}
    (h : (scan sel (xs ++ u :: ys)).files = none) : (scan sel (xs ++ v :: ys)).files = none := by
  induction xs using scan.induct sel with
  | case1 =>
    have hys := scan_fails_cons hsel hu h
    cases hx : sel v with
    | none =>
      rw [List.nil_append, scan_cons_kept hx]
      exact hys
    | some f => exact scan_fails_op hsel hx hys
  | case2 x f hx => rw [List.singleton_append, scan_cons_redir hx hv]
  | case3 x f hx t xs ht => rw [List.cons_append, List.cons_append, scan_cons_redir hx ht]
  | case4 x f hx t xs ht ih =>
    have ht : isRedir t = false := by simpa using ht
    rw [List.cons_append, List.cons_append, scan_cons_target hx ht, Option.map_eq_none_iff] at h ⊢
    exact ih h
  | case5 x xs hx ih =>
    rw [List.cons_append, scan_cons_kept hx] at h ⊢
    exact ih h

/-- A pass that fails with two ordinary words fails without them. -/
theorem scan_fails_drop {t : Str} (hu : isRedir u = false) (ht : isRedir t = false)
    {xs ys : List Str} (h : (scan sel (xs ++ u :: t :: ys)).files = none) :
    (scan sel (xs ++ ys)).files = none := by
  induction xs using scan.induct sel with
  | case1 => exact scan_fails_cons hsel ht (scan_fails_cons hsel hu h)
  | case2 x f hx =>
    rw [List.singleton_append, scan_cons_target hx hu, Option.map_eq_none_iff] at h
    exact scan_fails_op hsel hx (scan_fails_cons hsel ht h)
  | case3 x f hx r xs hr => rw [List.cons_append, List.cons_append, scan_cons_redir hx hr]
  | case4 x f hx r xs hr ih =>
    have hr : isRedir r = false := by simpa using hr
    rw [List.cons_append, List.cons_append, scan_cons_target hx hr, Option.map_eq_none_iff] at h ⊢
    exact ih h
  | case5 x xs hx ih =>
    rw [List.cons_append, scan_cons_kept hx] at h ⊢
    exact ih h

/-- An operator of another pass that the pass gets past is kept, as an ordinary word
in its place is. -/
theorem scan_keeps (hv : isRedir v = true) (hs : sel v = none) {xs ys : List Str}
    (h : (scan sel (xs ++ v :: ys)).files.isSome) : ∃ as bs, ∀ u, u = v ∨ isRedir u = false →
      (scan sel (xs ++ u :: ys)).args = as ++ u :: bs := by
  induction xs using scan.induct sel with
  | case1 =>
    refine ⟨[], (scan sel ys).args, ?_⟩
    intro u hu
    have hsu : sel u = none := by
      rcases hu with rfl | hu
      · exact hs
      · exact hsel u hu
    rw [List.nil_append, scan_cons_kept hsu]
    rfl
  | case2 x f hx =>
    rw [List.singleton_append, scan_cons_redir hx hv] at h
    cases h
  | case3 x f hx t xs ht =>
    rw [List.cons_append, List.cons_append, scan_cons_redir hx ht] at h
    cases h
  | case4 x f hx t xs ht ih =>
    have ht : isRedir t = false := by simpa using ht
    rw [List.cons_append, List.cons_append, scan_cons_target hx ht, Option.isSome_map] at h
    obtain ⟨as, bs, hk⟩ := ih h
    refine ⟨as, bs, ?_⟩
    intro u hu
    rw [List.cons_append, List.cons_append, scan_cons_target hx ht]
    exact hk u hu
  | case5 x xs hx ih =>
    rw [List.cons_append, scan_cons_kept hx] at h
    obtain ⟨as, bs, hk⟩ := ih h
    refine ⟨x :: as, bs, ?_⟩
    intro u hu
    rw [List.cons_append, scan_cons_kept hx, hk u hu]
    rfl

/-- An operator of the pass takes the word after it along. -/
theorem scan_takes (hv : isRedir v = true) {f : Str → α} (hs : sel v = some f) {xs ys : List Str}
    (h : (scan sel (xs ++ v :: ys)).files.isSome) : ∃ as t bs, isRedir t = false ∧
      (scan sel (xs ++ v :: ys)).args = as ++ bs ∧ ∀ u, isRedir u = false →
        (scan sel (xs ++ u :: ys)).args = as ++ u :: t :: bs := by
  induction xs using scan.induct sel with
  | case1 =>
    cases ys with
    | nil =>
      rw [List.nil_append, scan_cons_last hs] at h
      cases h
    | cons t ys =>
      cases ht : isRedir t with
      | true =>
        rw [List.nil_append, scan_cons_redir hs ht] at h
        cases h
      | false =>
        refine ⟨[], t, (scan sel ys).args, ht, ?_, ?_⟩
        · rw [List.nil_append, scan_cons_target hs ht]
          rfl
        · intro u hu
          rw [List.nil_append, scan_cons_kept (hsel u hu), scan_cons_kept (hsel t ht)]
          rfl
  | case2 x g hx =>
    rw [List.singleton_append, scan_cons_redir hx hv] at h
    cases h
  | case3 x g hx t xs ht =>
    rw [List.cons_append, List.cons_append, scan_cons_redir hx ht] at h
    cases h
  | case4 x g hx r xs hr ih =>
    -- an operator with its target in front: the pass steps over both
    have hr : isRedir r = false := by simpa using hr
    have hstep : ∀ u, (scan sel (x :: r :: xs ++ u :: ys)).args =
        (scan sel (xs ++ u :: ys)).args := fun u => by
      rw [List.cons_append, List.cons_append, scan_cons_target hx hr]
    rw [List.cons_append, List.cons_append, scan_cons_target hx hr, Option.isSome_map] at h
    obtain ⟨as, t, bs, ht, hd, hk⟩ := ih h
    exact ⟨as, t, bs, ht, (hstep v).trans hd, fun u hu => (hstep u).trans (hk u hu)⟩
  | case5 x xs hx ih =>
    have hstep : ∀ u, (scan sel (x :: xs ++ u :: ys)).args =
        x :: (scan sel (xs ++ u :: ys)).args := fun u => by
      rw [List.cons_append, scan_cons_kept hx]
    rw [List.cons_append, scan_cons_kept hx] at h
    obtain ⟨as, t, bs, ht, hd, hk⟩ := ih h
    refine ⟨x :: as, t, bs, ht, ?_, ?_⟩
    · rw [hstep, hd]
      rfl
    · intro u hu
      rw [hstep, hk u hu]
      rfl

omit hsel in
/-- What a pass keeps is no operator of it and was there before. -/
theorem scan_args {a : Str} {xs : List Str} (h : a ∈ (scan sel xs).args) :
    sel a = none ∧ a ∈ xs := by
  induction xs using scan.induct sel with
  | case1 => cases h
  | case2 x f hx =>
    rw [scan_cons_last hx] at h
    cases h
  | case3 x f hx t xs ht =>
    rw [scan_cons_redir hx ht] at h
    cases h
  | case4 x f hx t xs ht ih =>
    rw [scan_cons_target hx (by simpa using ht)] at h
    obtain ⟨hn, hm⟩ := ih h
    exact ⟨hn, by simp [hm]⟩
  | case5 x xs hx ih =>
    rw [scan_cons_kept hx] at h
    rcases List.mem_cons.mp h with rfl | h
    · exact ⟨hx, by simp⟩
    · obtain ⟨hn, hm⟩ := ih h
      exact ⟨hn, by simp [hm]⟩

omit hsel in
/-- The targets of a pass are no operators. -/
theorem scan_files {xs : List Str} {fs : List α} (h : (scan sel xs).files = some fs) {y : α}
    (hy : y ∈ fs) : ∃ x f t, sel x = some f ∧ isRedir t = false ∧ y = f t := by
  induction xs using scan.induct sel generalizing fs with
  | case1 =>
    cases h
    cases hy
  | case2 x f hx =>
    rw [scan_cons_last hx] at h
    cases h
  | case3 x f hx t xs ht =>
    rw [scan_cons_redir hx ht] at h
    cases h
  | case4 x f hx t xs ht ih =>
    have ht : isRedir t = false := by simpa using ht
    rw [scan_cons_target hx ht] at h
    obtain ⟨gs, hg, rfl⟩ := Option.map_eq_some_iff.mp h
    rcases List.mem_cons.mp hy with rfl | hy
    · exact ⟨x, f, t, hx, ht, rfl⟩
    · exact ih hg hy
  | case5 x xs hx ih =>
    rw [scan_cons_kept hx] at h
    exact ih h hy

end Scan

/-! ### What becomes of a command -/

/-- What the two passes make of a command: an error of one of them, or the
arguments and the files. -/
inductive Verdict
  | badIn
  | badOut
  | ok (args ins : List Str) (outs : List (Str × Bool))
  deriving DecidableEq, Repr

def verdict (args : List Str) : Verdict :=
  match (extIn args).files with
  | none => .badIn
  | some ins =>
    match (extOut (extIn args).args).files with
    | none => .badOut
    | some outs => .ok (extOut (extIn args).args).args ins outs

theorem rewrite_files {α : Type} (old : List Str) (x : Ext α) : (rewrite old x).files = x.files := by
  unfold rewrite
  split
  · rfl
  · rename_i h
    symm
    simpa using h

theorem rewrite_args {α : Type} {old : List Str} {x : Ext α} (h : x.files.isSome) :
    (rewrite old x).args = x.args := by
  rw [rewrite, if_pos h]

theorem extIn_files (args : List Str) : (extIn args).files = (scan inOp args).files :=
  rewrite_files _ _

/-- The verdict without the detour over the array. -/
theorem verdict_eq (args : List Str) : verdict args =
    match (scan inOp args).files with
    | none => .badIn
    | some ins =>
      match (scan outOp (scan inOp args).args).files with
      | none => .badOut
      | some outs => .ok (scan outOp (scan inOp args).args).args ins outs := by
  rw [verdict, extIn_files]
  cases hi : (scan inOp args).files with
  | none => rfl
  | some ins =>
    have ha : (extIn args).args = (scan inOp args).args := rewrite_args (by rw [hi]; rfl)
    simp only [ha]
    rw [extOut, rewrite_files]
    cases ho : (scan outOp (scan inOp args).args).files with
    | none => rfl
    | some outs =>
      simp only
      rw [rewrite_args (by rw [ho]; rfl)]

/-- A verdict that depends on one text only at one place: an argument or a file
name. -/
inductive OneHole : (Str → Verdict) → Prop
  | badIn : OneHole fun _ => .badIn
  | badOut : OneHole fun _ => .badOut
  | arg (as bs ins : List Str) (outs : List (Str × Bool)) :
      OneHole fun u => .ok (as ++ u :: bs) ins outs
  | inFile (args fs gs : List Str) (outs : List (Str × Bool)) :
      OneHole fun u => .ok args (fs ++ u :: gs) outs
  | outFile (args ins : List Str) (fs gs : List (Str × Bool)) (append : Bool) :
      OneHole fun u => .ok args ins (fs ++ (u, append) :: gs)

/-- **An ordinary word leaves its text at one place.** -/
theorem verdict_hole (xs ys : List Str) :
    ∃ K, OneHole K ∧ ∀ u, isRedir u = false → verdict (xs ++ u :: ys) = K u := by
  cases scanHole inOp_ordinary xs ys with
  | fails h =>
    refine ⟨_, .badIn, ?_⟩
    intro u hu
    rw [verdict_eq, h u hu]
  | target as fs gs x f hx h =>
    have hf : f = id := by
      unfold inOp at hx
      split at hx
      · exact (Option.some_inj.mp hx).symm
      · cases hx
    subst hf
    -- the word has become an input file; the second pass does not see it
    cases ho : (scan outOp as).files with
    | none =>
      refine ⟨_, .badOut, ?_⟩
      intro u hu
      simp only [verdict_eq, h u hu, ho]
    | some outs =>
      refine ⟨_, .inFile (scan outOp as).args fs gs outs, ?_⟩
      intro u hu
      simp only [verdict_eq, h u hu, ho, id]
  | kept as bs ins h =>
    cases scanHole outOp_ordinary as bs with
    | fails h' =>
      refine ⟨_, .badOut, ?_⟩
      intro u hu
      simp only [verdict_eq, h u hu, h' u hu]
    | kept as' bs' outs h' =>
      refine ⟨_, .arg as' bs' ins outs, ?_⟩
      intro u hu
      simp only [verdict_eq, h u hu, h' u hu]
    | target as' fs gs x f hx h' =>
      obtain ⟨b, rfl⟩ : ∃ b, f = (·, b) := by
        unfold outOp at hx
        split at hx
        · exact ⟨false, (Option.some_inj.mp hx).symm⟩
        · split at hx
          · exact ⟨true, (Option.some_inj.mp hx).symm⟩
          · cases hx
      refine ⟨_, .outFile as' ins fs gs b, ?_⟩
      intro u hu
      simp only [verdict_eq, h u hu, h' u hu]

/-- No operator is left among the arguments and the files. -/
theorem verdict_ok {args as ins : List Str} {outs : List (Str × Bool)}
    (h : verdict args = .ok as ins outs) {v : Str} (hv : isRedir v = true) :
    v ∉ as ∧ v ∉ ins ∧ ∀ b, (v, b) ∉ outs := by
  rw [verdict_eq] at h
  cases hi : (scan inOp args).files with
  | none =>
    rw [hi] at h
    cases h
  | some ins' =>
    rw [hi] at h
    cases ho : (scan outOp (scan inOp args).args).files with
    | none =>
      simp only [ho] at h
      cases h
    | some outs' =>
      simp only [ho] at h
      cases h
      refine ⟨?_, ?_, ?_⟩
      · intro hm
        -- the second pass keeps what the first one has kept
        obtain ⟨h₁, h₂⟩ := scan_args hm
        obtain ⟨h₃, -⟩ := scan_args h₂
        unfold outOp at h₁
        unfold inOp at h₃
        simp only [isRedir, Bool.or_eq_true, decide_eq_true_eq] at hv
        rcases hv with (rfl | rfl) | rfl
        · cases h₃
        · cases h₁
        · cases h₁
      · intro hm
        obtain ⟨x, f, t, hx, ht, rfl⟩ := scan_files hi hm
        unfold inOp at hx
        split at hx
        · cases hx
          rw [id, ht] at hv
          cases hv
        · cases hx
      · intro b hm
        obtain ⟨x, f, t, hx, ht, he⟩ := scan_files ho hm
        unfold outOp at hx
        split at hx
        · cases hx
          cases he
          rw [ht] at hv
          cases hv
        · split at hx
          · cases hx
            cases he
            rw [ht] at hv
            cases hv
          · cases hx

/-- A command in error with an ordinary word stays in error with an operator in its
place, in the same pass unless the first one now fails. -/
theorem verdict_error_redir {xs ys : List Str} {v : Str} (hv : isRedir v = true) :
    ((∀ w, isRedir w = false → verdict (xs ++ w :: ys) = .badIn) →
      verdict (xs ++ v :: ys) = .badIn) ∧
    ((∀ w, isRedir w = false → verdict (xs ++ w :: ys) = .badOut) →
      (verdict (xs ++ v :: ys) = .badOut ↔ (extIn (xs ++ v :: ys)).files.isSome)) := by
  have hnil : isRedir [] = false := rfl
  constructor
  · intro h
    have hw := h [] hnil
    have hin : (scan inOp (xs ++ [] :: ys)).files = none := by
      rw [verdict_eq] at hw
      split at hw
      case h_1 hi => exact hi
      case h_2 => split at hw <;> cases hw
    rw [verdict_eq, scan_fails_replace inOp_ordinary hnil hv hin]
  · intro h
    have hw := h [] hnil
    have hout : (scan outOp (scan inOp (xs ++ [] :: ys)).args).files = none := by
      rw [verdict_eq] at hw
      split at hw
      case h_1 => cases hw
      case h_2 =>
        split at hw
        case h_1 ho => exact ho
        case h_2 => cases hw
    rw [extIn_files]
    constructor
    · intro hb
      rw [verdict_eq] at hb
      cases hi : (scan inOp (xs ++ v :: ys)).files with
      | none =>
        rw [hi] at hb
        cases hb
      | some ins => rfl
    · intro hi
      -- the second pass fails on what the first one leaves of the command
      have hfail : (scan outOp (scan inOp (xs ++ v :: ys)).args).files = none := by
        cases hs : inOp v with
        | none =>
          obtain ⟨as, bs, hk⟩ := scan_keeps inOp_ordinary hv hs hi
          rw [hk [] (.inr hnil)] at hout
          rw [hk v (.inl rfl)]
          exact scan_fails_replace outOp_ordinary hnil hv hout
        | some f =>
          obtain ⟨as, t, bs, ht, hd, hk⟩ := scan_takes inOp_ordinary hv hs hi
          rw [hk [] hnil] at hout
          rw [hd]
          exact scan_fails_drop outOp_ordinary hnil ht hout
      obtain ⟨ins, hins⟩ := Option.isSome_iff_exists.mp hi
      simp only [verdict_eq, hins, hfail]

/-- The command is in error with an ordinary word in the place of `v`, and `v` does
not turn an error of the second pass into one of the first. -/
def ErrorAnyway (xs : List Str) (v : Str) (ys : List Str) : Prop :=
  (∀ w, isRedir w = false → verdict (xs ++ w :: ys) = .badIn) ∨
  (∀ w, isRedir w = false → verdict (xs ++ w :: ys) = .badOut) ∧
    (extIn (xs ++ v :: ys)).files.isSome

/-- When an operator has the verdict of an ordinary word. -/
theorem verdict_redir_iff {xs ys : List Str} {v : Str} (hv : isRedir v = true)
    {K : Str → Verdict} (hK : OneHole K)
    (h : ∀ u, isRedir u = false → verdict (xs ++ u :: ys) = K u) :
    verdict (xs ++ v :: ys) = K v ↔ ErrorAnyway xs v ys := by
  have hnil := h [] rfl
  obtain ⟨hbadIn, hbadOut⟩ := @verdict_error_redir xs ys v hv
  -- a command without error shows the word, and an operator is never shown
  have shown : ∀ as ins outs, K [] = .ok as ins outs → (∀ args, verdict args ≠ K v) →
      (verdict (xs ++ v :: ys) = K v ↔ ErrorAnyway xs v ys) := by
    intro as ins outs hok hno
    constructor
    · intro he
      exact absurd he (hno _)
    · rintro (hb | ⟨hb, -⟩)
      · rw [hb [] rfl, hok] at hnil
        cases hnil
      · rw [hb [] rfl, hok] at hnil
        cases hnil
  cases hK with
  | badIn => exact ⟨fun _ => .inl h, fun _ => hbadIn h⟩
  | badOut =>
    constructor
    · intro he
      exact .inr ⟨h, (hbadOut h).mp he⟩
    · rintro (hb | ⟨-, hi⟩)
      · rw [hb [] rfl] at hnil
        cases hnil
      · exact (hbadOut h).mpr hi
  | arg as bs ins outs =>
    refine shown _ _ _ rfl ?_
    intro args he
    exact (verdict_ok he hv).1 (by simp)
  | inFile args fs gs outs =>
    refine shown _ _ _ rfl ?_
    intro args he
    exact (verdict_ok he hv).2.1 (by simp)
  | outFile args ins fs gs b =>
    refine shown _ _ _ rfl ?_
    intro args he
    exact (verdict_ok he hv).2.2 b (by simp)

end Cshell
