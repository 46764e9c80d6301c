/-
What the operations on `bg_list` come to.

Every operation on the table adds an entry at the end, replaces one entry, takes one
out, or sets `sus` in the jobs a process belongs to.  Once this is said of each the
blocks of memory play no part any more.

* `Table.Shape` — the counts of a table are those of its blocks;
* `Edit` — one entry is replaced, or goes;
* `register_eq`, `mark_eq`, `setSus_eq`, `removeAt_eq`, `announceBg_cases` — the
  operations on a table of that shape.
-/
import CshellXv6.Shell.BgList

namespace BgList

open Cshell CArray CString

/-- The counts of an entry: its members and its names are as many as `num` says. -/
structure Bg.Shape (e : Bg) : Prop where
  pos : 1 ≤ e.num
  pids_length : e.pids.length = e.num
  names_length : e.names.length = e.num

/-- The counts of a table. -/
structure Table.Shape (t : Table) : Prop where
  size : t.bgSize = t.bgList.length
  entry : ∀ e ∈ t.bgList, e.Shape

/-- The table with other entries. -/
def Table.withList (t : Table) (es : List Bg) : Table :=
  { t with bgList := es, bgSize := es.length }

@[simp] theorem withList_bgList (t : Table) (es : List Bg) : (t.withList es).bgList = es := rfl

/-- One entry `e` is replaced, or goes. -/
def Edit (t t' : Table) (e : Bg) (new : Option Bg) : Prop :=
  ∃ pre post, t.bgList = pre ++ e :: post ∧ t' = t.withList (pre ++ (new.toList ++ post))

theorem exists_split {es : List Bg} {i : ℕ} {e : Bg} (h : es[i]? = some e) :
    ∃ pre post, es = pre ++ e :: post ∧ pre.length = i := by
  obtain ⟨hi, rfl⟩ := List.getElem?_eq_some_iff.mp h
  refine ⟨es.take i, es.drop (i + 1), ?_, List.length_take_of_le (by omega)⟩
  rw [List.getElem_cons_drop, List.take_append_drop]

/-- A new job is an entry at the end. -/
theorem register_eq {t : Table} {pids : List ℕ} {names : List Str} {num : ℕ} (junk : Bg)
    (sus : Bool) (cmd : Str) (args : List Str) (hs : t.bgSize = t.bgList.length)
    (hp : num ≤ pids.length) (hn : num ≤ names.length) :
    t.register junk pids names num sus cmd args =
      { t.withList (t.bgList ++ [⟨pids.headD 0, toInt t.jobs, cmd, pids.headD 0, sus,
          pids.take num, num, names.take num, args⟩]) with jobs := t.jobs + 1 } := by
  unfold Table.register Table.withList
  rw [realloc_set junk _ hs.symm, copyLoop_malloc _ hp, copyLoop_malloc _ hn, List.length_append, hs]
  rfl

/-- `plant` sets `sus` in the jobs of the process. -/
theorem mark_eq {t : Table} (hs : t.bgSize = t.bgList.length) (pid : ℕ) (b : Bool) :
    t.mark pid b =
      t.withList (t.bgList.map fun e => if pid ∈ e.pids then { e with sus := b } else e) := by
  unfold Table.mark Table.withList
  rw [hs, List.take_length, List.drop_length, List.append_nil, List.length_map]

/-- The three places that delete a job. -/
theorem removeAt_eq {t : Table} {i : ℕ} (junk : Bg) (hs : t.bgSize = t.bgList.length)
    (hi : i < t.bgSize) : t.removeAt junk i = t.withList (t.bgList.eraseIdx i) := by
  unfold Table.removeAt Table.withList
  rw [realloc_memmove junk hs.symm hi, List.length_eraseIdx_of_lt (hs ▸ hi), hs]

theorem setSus_eq {t : Table} (hs : t.bgSize = t.bgList.length) (i : ℕ) (b : Bool) :
    t.setSus i b = t.withList (t.bgList.modify i fun e => { e with sus := b }) := by
  unfold Table.setSus Table.withList
  rw [List.length_modify, hs]

theorem edit_removeAt {t : Table} {i : ℕ} {e : Bg} (junk : Bg) (hs : t.bgSize = t.bgList.length)
    (he : t.bgList[i]? = some e) : Edit t (t.removeAt junk i) e none := by
  obtain ⟨pre, post, hl, hi⟩ := exists_split he
  have hlt : i < t.bgSize := hs ▸ (List.getElem?_eq_some_iff.mp he).1
  refine ⟨pre, post, hl, ?_⟩
  rw [removeAt_eq junk hs hlt, hl, List.eraseIdx_append_of_length_le (by omega), hi, Nat.sub_self]
  rfl

theorem edit_setSus {t : Table} {i : ℕ} {e : Bg} (hs : t.bgSize = t.bgList.length)
    (he : t.bgList[i]? = some e) (b : Bool) :
    Edit t (t.setSus i b) e (some { e with sus := b }) := by
  obtain ⟨pre, post, hl, hi⟩ := exists_split he
  refine ⟨pre, post, hl, ?_⟩
  rw [setSus_eq hs, hl, List.modify_eq_take_drop, List.take_left' hi, List.drop_left' hi]
  rfl

/-- Two arrays from which the same index goes. -/
theorem zip_eraseIdx {α β : Type} (as : List α) (bs : List β) (m : ℕ) :
    (as.eraseIdx m).zip (bs.eraseIdx m) = (as.zip bs).eraseIdx m := by
  induction as generalizing bs m with
  | nil => simp
  | cons a as ih =>
    cases bs with
    | nil => simp
    | cons b bs =>
      cases m with
      | zero => rfl
      | succ m => exact congrArg ((a, b) :: ·) (ih bs m)

section dropMember

variable {e : Bg} {m : ℕ}

theorem num_le_members (h : e.pids.length = e.num) : e.num ≤ e.members.length := by
  rw [Bg.pids, List.length_take] at h
  omega

theorem num_le_name (h : e.names.length = e.num) : e.num ≤ e.name.length := by
  rw [Bg.names, List.length_take] at h
  omega

/-- The loop of `announce_bg` deletes the member. -/
theorem dropMember_pids (h : e.pids.length = e.num) (hm : m < e.num) :
    (Table.dropMember e m).pids = e.pids.eraseIdx m := take_shiftDown hm (num_le_members h)

/-- It deletes its name. -/
theorem dropMember_names (h : e.names.length = e.num) (hm : m < e.num) :
    (Table.dropMember e m).names = e.names.eraseIdx m := take_shiftDown hm (num_le_name h)

theorem dropMember_shape (h : e.Shape) (hm : m < e.num) (hn : e.num ≠ 1) :
    (Table.dropMember e m).Shape := by
  have hpos := h.pos
  refine ⟨?_, ?_, ?_⟩
  · show 1 ≤ e.num - 1
    omega
  · rw [dropMember_pids h.pids_length hm, List.length_eraseIdx_of_lt (h.pids_length ▸ hm),
      h.pids_length]
    rfl
  · rw [dropMember_names h.names_length hm, List.length_eraseIdx_of_lt (h.names_length ▸ hm),
      h.names_length]
    rfl

theorem dropMember_pairs (h : e.Shape) (hm : m < e.num) :
    (Table.dropMember e m).pairs = e.pairs.eraseIdx m := by
  rw [Bg.pairs, dropMember_pids h.pids_length hm, dropMember_names h.names_length hm, zip_eraseIdx]
  rfl

end dropMember

/-- The search of `announce_bg`: the first job with the process, and where it stands
in it. -/
theorem search_some {pid i m k : ℕ} {es : List Bg} (h : Table.search pid es k = some (i, m)) :
    ∃ pre e post, es = pre ++ e :: post ∧ i = k + pre.length ∧ e.pids.idxOf? pid = some m ∧
      ∀ e' ∈ pre, pid ∉ e'.pids := by
  induction es generalizing k with
  | nil => cases h
  | cons e es ih =>
    rw [Table.search] at h
    split at h
    · rename_i m' hm
      cases h
      exact ⟨[], e, es, rfl, by simp, hm, by simp⟩
    · rename_i hm
      obtain ⟨pre, e', post, rfl, hi, hm', hpre⟩ := ih h
      refine ⟨e :: pre, e', post, rfl, ?_, hm', ?_⟩
      · rw [hi, List.length_cons]
        omega
      · rw [List.forall_mem_cons]
        exact ⟨List.idxOf?_eq_none_iff.mp hm, hpre⟩

theorem search_none {pid k : ℕ} {es : List Bg} (h : Table.search pid es k = none) :
    ∀ e ∈ es, pid ∉ e.pids := by
  induction es generalizing k with
  | nil => simp
  | cons e es ih =>
    rw [Table.search] at h
    split at h
    · cases h
    · rename_i hm
      rw [List.forall_mem_cons]
      exact ⟨List.idxOf?_eq_none_iff.mp hm, ih h⟩

theorem lt_length_of_idxOf? {a m : ℕ} {as : List ℕ} (h : as.idxOf? a = some m) : m < as.length :=
  (List.findIdx?_eq_some_iff_getElem.mp h).1

/-- `announce_bg` does nothing, or it replaces the first job with the process, or takes
it out if that was its last member. -/
theorem announceBg_cases {t : Table} (junk : Bg) (pid : ℕ) (h : t.Shape) :
    (∀ e ∈ t.bgList, pid ∉ e.pids) ∧ t.announceBg junk pid = t ∨
    ∃ pre e post m, t.bgList = pre ++ e :: post ∧ (∀ e' ∈ pre, pid ∉ e'.pids) ∧
      e.pids.idxOf? pid = some m ∧ m < e.num ∧ t.announceBg junk pid =
        t.withList (pre ++ ((if e.num = 1 then none else some (Table.dropMember e m)).toList ++ post)) := by
  have htake : t.bgList.take t.bgSize = t.bgList := by rw [h.size, List.take_length]
  unfold Table.announceBg
  rw [htake]
  split
  · rename_i hnone
    exact .inl ⟨search_none hnone, rfl⟩
  · rename_i i m hsome
    obtain ⟨pre, e, post, hl, hi, hm, hpre⟩ := search_some hsome
    rw [Nat.zero_add] at hi
    have he : t.bgList[i]? = some e := by
      rw [hl, hi]
      simp
    have hok := h.entry e (by rw [hl]; simp)
    have hlt : m < e.num := hok.pids_length ▸ lt_length_of_idxOf? hm
    have hset : t.bgList.set i (Table.dropMember e m) = pre ++ Table.dropMember e m :: post := by
      rw [hl, hi, List.set_append_right _ _ (Nat.le_refl _), Nat.sub_self]
      rfl
    have hnum : (Table.dropMember e m).num = e.num - 1 := rfl
    rw [he]
    refine .inr ⟨pre, e, post, m, hl, hpre, hm, hlt, ?_⟩
    by_cases h1 : e.num = 1
    · -- the last member: the entry, already changed, goes
      have hs : t.bgSize = (t.bgList.set i (Table.dropMember e m)).length := by
        rw [List.length_set, h.size]
      have hi' : i < t.bgSize := h.size ▸ (List.getElem?_eq_some_iff.mp he).1
      simp only [hnum, h1, Nat.sub_self, if_true]
      rw [removeAt_eq (t := { t with bgList := t.bgList.set i (Table.dropMember e m) }) junk hs hi']
      show Table.withList _ (List.eraseIdx (t.bgList.set i _) i) = _
      rw [List.eraseIdx_set_eq, hl, hi, List.eraseIdx_append_of_length_le (Nat.le_refl _), Nat.sub_self]
      rfl
    · have hz : e.num - 1 ≠ 0 := by
        have := hok.pos
        omega
      simp only [hnum, hz, h1, if_false, hset]
      rw [Table.withList, h.size, hl]
      simp

/-- A process in no job is not announced. -/
theorem report_none {t : Table} {pid : ℕ} (hs : t.bgSize = t.bgList.length)
    (h : ∀ e ∈ t.bgList, pid ∉ e.pids) (stat : Bool) : t.report pid stat = none := by
  unfold Table.report
  rw [hs, List.take_length]
  split
  · rfl
  · rename_i i m hsome
    obtain ⟨pre, e, post, hl, -, hm, -⟩ := search_some hsome
    have hin : pid ∈ e.pids := List.isSome_idxOf?.mp (by simp [hm])
    exact absurd hin (h e (by simp [hl]))

/-- A process in a job is announced under its name. -/
theorem report_some {t : Table} {pid : ℕ} {name : ℕ → Str} (h : t.Shape)
    (hn : ∀ e ∈ t.bgList, e.names = e.pids.map name) (hp : ∃ e ∈ t.bgList, pid ∈ e.pids)
    (stat : Bool) : t.report pid stat = some ⟨name pid, pid, stat⟩ := by
  unfold Table.report
  rw [h.size, List.take_length]
  split
  · rename_i hnone
    obtain ⟨e, he, hin⟩ := hp
    exact absurd hin (search_none hnone e he)
  · rename_i i m hsome
    obtain ⟨pre, e, post, hl, hi, hm, -⟩ := search_some hsome
    have he : e ∈ t.bgList := by simp [hl]
    have hei : t.bgList[i]? = some e := by
      rw [hl, hi]
      simp
    have hlt : m < e.num := (h.entry e he).pids_length ▸ lt_length_of_idxOf? hm
    have hpm : e.pids[m]? = some pid := by
      obtain ⟨hlt', heq, -⟩ := List.findIdx?_eq_some_iff_getElem.mp hm
      rw [List.getElem?_eq_getElem hlt']
      simpa using heq
    have hname : e.name[m]? = some (name pid) := by
      have htake : e.names[m]? = e.name[m]? := by rw [Bg.names, List.getElem?_take_of_lt hlt]
      rw [← htake, hn e he, List.getElem?_map, hpm]
      rfl
    rw [hei, Option.bind_some, hname]
    rfl

/-! ### The shape is kept -/

section shape

variable {t t' : Table} {e : Bg} {new : Option Bg}

theorem Table.Shape.edit (h : t.Shape) (he : Edit t t' e new) (hn : ∀ e' ∈ new, e'.Shape) :
    t'.Shape := by
  obtain ⟨pre, post, hl, rfl⟩ := he
  refine ⟨rfl, ?_⟩
  intro e' he'
  simp only [withList_bgList, List.mem_append, Option.mem_toList] at he'
  rcases he' with he' | he' | he'
  · exact h.entry e' (by simp [hl, he'])
  · exact hn e' he'
  · exact h.entry e' (by simp [hl, he'])

theorem Table.Shape.mark (h : t.Shape) (pid : ℕ) (b : Bool) : (t.mark pid b).Shape := by
  rw [mark_eq h.size]
  refine ⟨rfl, ?_⟩
  intro e' he'
  obtain ⟨e, he, rfl⟩ := List.mem_map.mp he'
  have hok := h.entry e he
  split
  · exact ⟨hok.pos, hok.pids_length, hok.names_length⟩
  · exact hok

theorem Table.Shape.setSus (h : t.Shape) {i : ℕ} (he : t.bgList[i]? = some e) (b : Bool) :
    (t.setSus i b).Shape := by
  refine h.edit (edit_setSus h.size he b) ?_
  rintro e' ⟨⟩
  have hok := h.entry e (List.mem_of_getElem? he)
  exact ⟨hok.pos, hok.pids_length, hok.names_length⟩

theorem Table.Shape.removeAt (h : t.Shape) {i : ℕ} (junk : Bg) (he : t.bgList[i]? = some e) :
    (t.removeAt junk i).Shape :=
  h.edit (edit_removeAt junk h.size he) (by simp)

/-- An announcement as an edit of the first job with the process. -/
theorem announceBg_edit (junk : Bg) (pid : ℕ) (h : t.Shape) :
    t.bgList.find? (pid ∈ ·.pids) = none ∧ t.announceBg junk pid = t ∨
    ∃ e new, t.bgList.find? (pid ∈ ·.pids) = some e ∧ Edit t (t.announceBg junk pid) e new ∧
      ∀ e' ∈ new, e'.job = e.job ∧ e'.Shape ∧ e'.pids ⊆ e.pids ∧ e'.pairs.Sublist e.pairs := by
  obtain ⟨hno, heq⟩ | ⟨pre, e, post, m, hl, hpre, hm, hlt, heq⟩ := announceBg_cases junk pid h
  · exact .inl ⟨List.find?_eq_none.mpr (by simpa using hno), heq⟩
  · have hok := h.entry e (by simp [hl])
    have hin : pid ∈ e.pids := List.isSome_idxOf?.mp (by simp [hm])
    refine .inr ⟨e, _, ?_, ⟨pre, post, hl, heq⟩, ?_⟩
    · rw [hl, List.find?_append, List.find?_eq_none.mpr (by simpa using hpre)]
      simp [hin]
    · intro e' he'
      split at he'
      · cases he'
      · rename_i h1
        cases he'
        refine ⟨rfl, dropMember_shape hok hlt h1, ?_, ?_⟩
        · rw [dropMember_pids hok.pids_length hlt]
          exact (List.eraseIdx_sublist _ _).subset
        · rw [dropMember_pairs hok hlt]
          exact List.eraseIdx_sublist _ _

theorem Table.Shape.announceBg (h : t.Shape) (junk : Bg) (pid : ℕ) :
    (t.announceBg junk pid).Shape := by
  obtain ⟨-, heq⟩ | ⟨e, new, -, hed, hnew⟩ := announceBg_edit junk pid h
  · rwa [heq]
  · exact h.edit hed fun e' he' => (hnew e' he').2.1

theorem Table.Shape.register {pids : List ℕ} {names : List Str} {num : ℕ} (h : t.Shape) (junk : Bg)
    (sus : Bool) (cmd : Str) (args : List Str) (h1 : 1 ≤ num) (hp : num ≤ pids.length)
    (hn : num ≤ names.length) : (t.register junk pids names num sus cmd args).Shape := by
  rw [register_eq junk sus cmd args h.size hp hn]
  refine ⟨rfl, ?_⟩
  intro e he
  rcases List.mem_append.mp he with he | he
  · exact h.entry e he
  · rw [List.mem_singleton.mp he]
    exact ⟨h1, by simp [Bg.pids, hp], by simp [Bg.names, hn]⟩

theorem Table.Shape.withWaits (h : t.Shape) (ws : List (ℕ × Bool)) :
    ({ t with waitList := ws }).Shape := ⟨h.size, h.entry⟩

end shape

/-- The lines of `activities` about processes. -/
theorem mem_lines {t : Table} {pid : ℕ} {name : Str} {stopped : Bool} (h : t.Shape) :
    Line.member pid name stopped ∈ t.lines ↔
      ∃ e ∈ t.bgList, (pid, name) ∈ e.pairs ∧ stopped = e.sus := by
  rw [Table.lines, h.size, List.take_length, List.mem_flatMap]
  constructor
  · rintro ⟨e, he, hl⟩
    rcases List.mem_cons.mp hl with hl | hl
    · cases hl
    · obtain ⟨y, hy, heq⟩ := List.mem_map.mp hl
      cases heq
      exact ⟨e, he, hy, rfl⟩
  · rintro ⟨e, he, hp, rfl⟩
    exact ⟨e, he, List.mem_cons_of_mem _ (List.mem_map.mpr ⟨(pid, name), hp, rfl⟩)⟩

end BgList
