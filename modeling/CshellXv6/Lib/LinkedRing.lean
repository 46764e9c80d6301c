/-
Circular doubly linked lists.

The nodes of a ring are linked both ways, and closed by a head that carries no
element.  The two operations are the usual pointer surgery.

* `LinkedRing.Ring` — the nodes behind a head, in order;
* `Ring.unlink` and `Ring.insertAfter` — the surgery on the pointers is the
  edit of the list;
* `Linked.next_eq` and `Linked.prev_eq` — where a walk in either direction goes
  from a node.
-/
import Mathlib.Data.List.Nodup
import Mathlib.Logic.Function.Basic

/-- The pointers of all nodes. -/
structure LinkedRing (N : Type) where
  next : N → N
  prev : N → N

namespace LinkedRing

variable {N : Type} {m m' : LinkedRing N} {l r xs : List N} {a b c h : N}

/-- Neighbours in the list are linked both ways. -/
def Linked (m : LinkedRing N) : List N → Prop
  | a :: b :: l => m.next a = b ∧ m.prev b = a ∧ Linked m (b :: l)
  | _ => True

/-- A list is linked if both its parts are, with a node in common. -/
theorem linked_append : Linked m (l ++ a :: r) ↔ Linked m (l ++ [a]) ∧ Linked m (a :: r) := by
  induction l with
  | nil => simp [Linked]
  | cons x l ih =>
    cases l with
    | nil => simp [Linked, and_assoc]
    | cons y l =>
      show m.next x = y ∧ m.prev y = x ∧ Linked m (y :: l ++ a :: r) ↔
        (m.next x = y ∧ m.prev y = x ∧ Linked m (y :: l ++ [a])) ∧ Linked m (a :: r)
      rw [ih, and_assoc, and_assoc]

theorem Linked.neighbours (hl : Linked m (l ++ a :: b :: r)) :
    m.next a = b ∧ m.prev b = a ∧ Linked m (l ++ [a]) ∧ Linked m (b :: r) := by
  obtain ⟨hleft, hab, hba, hright⟩ := linked_append.mp hl
  exact ⟨hab, hba, hleft, hright⟩

/-- Following `next` from a node. -/
theorem Linked.next_eq (hl : Linked m (l ++ a :: b :: r)) : m.next a = b :=
  hl.neighbours.1

/-- Following `prev` from a node. -/
theorem Linked.prev_eq (hl : Linked m (l ++ a :: b :: r)) : m.prev b = a :=
  hl.neighbours.2.1

/-- Only the pointers between the nodes of the list matter. -/
theorem Linked.congr (hl : Linked m l) (hn : ∀ x ∈ l.dropLast, m'.next x = m.next x)
    (hp : ∀ x ∈ l.tail, m'.prev x = m.prev x) : Linked m' l := by
  induction l with
  | nil => trivial
  | cons x l ih =>
    cases l with
    | nil => trivial
    | cons y l =>
      obtain ⟨hxy, hyx, hl⟩ := hl
      refine ⟨by rw [hn x (by simp), hxy], by rw [hp y (by simp), hyx], ih hl ?_ ?_⟩
      · exact fun z hz => hn z (by simp [List.dropLast, hz])
      · exact fun z hz => hp z (List.mem_cons_of_mem _ hz)

/-- The ring with head `h` and the nodes `xs` behind it. -/
structure Ring (m : LinkedRing N) (h : N) (xs : List N) : Prop where
  linked : Linked m (h :: xs ++ [h])
  nodup : (h :: xs).Nodup

variable [DecidableEq N]

/-- `b->next->prev = b->prev; b->prev->next = b->next` -/
def unlink (m : LinkedRing N) (b : N) : LinkedRing N :=
  let m₁ : LinkedRing N := { m with prev := Function.update m.prev (m.next b) (m.prev b) }
  { m₁ with next := Function.update m₁.next (m₁.prev b) (m₁.next b) }

/-- `b->next = h->next; b->prev = h; h->next->prev = b; h->next = b` -/
def insertAfter (m : LinkedRing N) (h b : N) : LinkedRing N :=
  let m₁ : LinkedRing N :=
    ⟨Function.update m.next b (m.next h), Function.update m.prev b h⟩
  ⟨Function.update m₁.next h b, Function.update m₁.prev (m₁.next h) b⟩

omit [DecidableEq N] in
/-- The head stands at both ends of the cycle. -/
theorem nodup_concat (hnd : (h :: xs).Nodup) : (xs ++ [h]).Nodup :=
  (List.perm_append_singleton h xs).nodup_iff.mpr hnd

/-- Taking `b` out from between `a` and `c`; the cycle may be closed at one of
the two. -/
theorem Linked.unlink (hl : Linked m (l ++ a :: b :: c :: r)) (hbc : b ≠ c) (hal : a ∉ l)
    (har : a ∉ (c :: r).dropLast) (hcl : c ∉ (l ++ [a]).tail) (hcr : c ∉ r) :
    Linked (m.unlink b) (l ++ a :: c :: r) := by
  obtain ⟨hab, hba, hleft, hright⟩ := hl.neighbours
  obtain ⟨hnext, hprev, hright⟩ := hright
  have hnext' : (m.unlink b).next = Function.update m.next a c := by
    simp [LinkedRing.unlink, hnext, hba, Function.update_of_ne hbc]
  have hprev' : (m.unlink b).prev = Function.update m.prev c a := by
    simp [LinkedRing.unlink, hnext, hba]
  refine linked_append.mpr ⟨hleft.congr (fun x hx => ?_) fun x hx => ?_, ?_, ?_,
    hright.congr (fun x hx => ?_) fun x hx => ?_⟩
  · rw [List.dropLast_concat] at hx
    have hxa : x ≠ a := fun he => hal (he ▸ hx)
    rw [hnext', Function.update_of_ne hxa]
  · have hxc : x ≠ c := fun he => hcl (he ▸ hx)
    rw [hprev', Function.update_of_ne hxc]
  · rw [hnext', Function.update_self]
  · rw [hprev', Function.update_self]
  · have hxa : x ≠ a := fun he => har (he ▸ hx)
    rw [hnext', Function.update_of_ne hxa]
  · have hxc : x ≠ c := fun he => hcr (he ▸ hx)
    rw [hprev', Function.update_of_ne hxc]

/-- Putting `b` in between `a` and `c`, where a list begins. -/
theorem Linked.insertAfter (hl : Linked m (a :: c :: r)) (hba : b ≠ a) (hbc : b ∉ c :: r)
    (har : a ∉ (c :: r).dropLast) (hcr : c ∉ r) :
    Linked (m.insertAfter a b) (a :: b :: c :: r) := by
  obtain ⟨hnext, hprev, hright⟩ := hl
  have hcb : c ≠ b := fun he => hbc (he ▸ List.mem_cons_self)
  have hnext' : (m.insertAfter a b).next = Function.update (Function.update m.next b c) a b := by
    simp [LinkedRing.insertAfter, hnext]
  have hprev' : (m.insertAfter a b).prev = Function.update (Function.update m.prev b a) c b := by
    simp [LinkedRing.insertAfter, hnext, Function.update_of_ne (Ne.symm hba)]
  refine ⟨by rw [hnext', Function.update_self], ?_, ?_, ?_, hright.congr (fun x hx => ?_)
    fun x hx => ?_⟩
  · rw [hprev', Function.update_of_ne (Ne.symm hcb), Function.update_self]
  · rw [hnext', Function.update_of_ne hba, Function.update_self]
  · rw [hprev', Function.update_self]
  · have hxa : x ≠ a := fun he => har (he ▸ hx)
    have hxb : x ≠ b := fun he => hbc (he ▸ List.dropLast_subset _ hx)
    rw [hnext', Function.update_of_ne hxa, Function.update_of_ne hxb]
  · have hxc : x ≠ c := fun he => hcr (he ▸ hx)
    have hxb : x ≠ b := fun he => hbc (he ▸ List.mem_cons_of_mem _ hx)
    rw [hprev', Function.update_of_ne hxc, Function.update_of_ne hxb]

/-- Taking a node out of the ring. -/
theorem Ring.unlink (hr : Ring m h xs) (hb : b ∈ xs) : Ring (m.unlink b) h (xs.erase b) := by
  obtain ⟨l, r, rfl⟩ := List.append_of_mem hb
  have hnd := hr.nodup
  have hlb : b ∉ l := fun hmem =>
    List.disjoint_of_nodup_append (List.nodup_cons.mp hnd).2 hmem List.mem_cons_self
  have herase : (l ++ b :: r).erase b = l ++ r := by simp [List.erase_append_right _ hlb]
  rw [herase]
  -- `a` stands before `b`, and `c` behind it
  obtain ⟨l', a, ha⟩ : ∃ l' a, h :: l = l' ++ [a] :=
    ⟨_, _, (List.dropLast_append_getLast (List.cons_ne_nil h l)).symm⟩
  obtain ⟨c, r', hc⟩ : ∃ c r', r ++ [h] = c :: r' := List.exists_cons_of_ne_nil (by simp)
  have hcycle : ((h :: l) ++ b :: r).Nodup := hnd
  obtain ⟨hhl, hbr, hdisj⟩ := List.nodup_append.mp hcycle
  have hhr : (h :: r).Nodup := hnd.sublist
    (.cons_cons h ((List.sublist_cons_self b r).trans (List.sublist_append_right l _)))
  have hcr := nodup_concat hhr
  have hlinked := hr.linked
  have hold : h :: (l ++ b :: r) ++ [h] = l' ++ a :: b :: c :: r' := by
    rw [← hc, ← List.cons_append, ha]
    simp
  have hnew : h :: (l ++ r) ++ [h] = l' ++ a :: c :: r' := by
    rw [← hc, ← List.cons_append, ha]
    simp
  have hcmem : c = h ∨ c ∈ r := by
    have hmem : c ∈ r ++ [h] := hc ▸ List.mem_cons_self
    simpa [or_comm] using hmem
  have hamem : a ∈ h :: l := by
    rw [ha]
    simp
  rw [hold] at hlinked
  refine ⟨?_, hnd.sublist (.cons_cons h ((List.sublist_cons_self b r).append_left l))⟩
  rw [hnew]
  refine hlinked.unlink ?_ ?_ ?_ ?_ ?_
  · rintro rfl
    obtain rfl | hmem := hcmem
    · exact hdisj b List.mem_cons_self b List.mem_cons_self rfl
    · exact (List.nodup_cons.mp hbr).1 hmem
  · rw [ha] at hhl
    exact fun hmem => (List.nodup_append.mp hhl).2.2 a hmem a (List.mem_singleton_self a) rfl
  · rw [← hc, List.dropLast_concat]
    exact fun hmem => hdisj a hamem a (List.mem_cons_of_mem _ hmem) rfl
  · rw [← ha]
    intro hmem
    obtain rfl | hcr := hcmem
    · exact (List.nodup_cons.mp hhl).1 hmem
    · exact hdisj c (List.mem_cons_of_mem _ hmem) c (List.mem_cons_of_mem _ hcr) rfl
  · rw [hc] at hcr
    exact (List.nodup_cons.mp hcr).1

/-- Putting a node in, right behind the head. -/
theorem Ring.insertAfter (hr : Ring m h xs) (hb : b ∉ h :: xs) :
    Ring (m.insertAfter h b) h (b :: xs) := by
  have hnd := hr.nodup
  have hbh : b ≠ h := fun he => hb (he ▸ List.mem_cons_self)
  have hbx : b ∉ xs := fun hmem => hb (List.mem_cons_of_mem _ hmem)
  obtain ⟨c, r', hc⟩ : ∃ c r', xs ++ [h] = c :: r' := List.exists_cons_of_ne_nil (by simp)
  have hcr := nodup_concat hnd
  have hlinked := hr.linked
  rw [List.cons_append, hc] at hlinked
  refine ⟨?_, ?_⟩
  · show Linked _ (h :: b :: (xs ++ [h]))
    rw [hc]
    refine hlinked.insertAfter hbh ?_ ?_ ?_
    · rw [← hc]
      simp [hbx, hbh]
    · rw [← hc, List.dropLast_concat]
      exact (List.nodup_cons.mp hnd).1
    · rw [hc] at hcr
      exact (List.nodup_cons.mp hcr).1
  · rw [List.nodup_cons, List.mem_cons, not_or]
    exact ⟨⟨Ne.symm hbh, (List.nodup_cons.mp hnd).1⟩,
      List.nodup_cons.mpr ⟨hbx, (List.nodup_cons.mp hnd).2⟩⟩

end LinkedRing
