import Mathlib

/-!
# Paging by a cursor

A list is read in pages of a given size; each page starts behind the cursor of
the last item before. Cursors rise along the list but may repeat, and then a
page that ends among equal cursors leaves the rest of them out. Reading on until
a page is empty yields the whole list if and only if no page ends there.
-/
namespace Paging
variable {α κ : Type}

/-- The first items behind the cursor. -/
def page [LE κ] [DecidableLE κ] (cursor : α → κ) (items : List α) (limit : Nat) (after : Option κ) : List α :=
  (items.filter (fun c => !after.any (fun a => cursor c ≤ a))).take limit

/-- The items of the pages that are read one after another, until one is empty. -/
inductive Read (call : Option κ → List α) (cursor : α → κ) : Option κ → List α → Prop
  | stop {after : Option κ} (empty : call after = []) : Read call cursor after []
  | more {after : Option κ} {last : α} {rest : List α} (ends : (call after).getLast? = some last)
      (later : Read call cursor (some (cursor last)) rest) : Read call cursor after (call after ++ rest)

theorem Read.unique {call : Option κ → List α} {cursor : α → κ} {after : Option κ} {first second : List α}
    (one : Read call cursor after first) (other : Read call cursor after second) : first = second := by
  induction one generalizing second with
  | stop empty =>
    cases other with
    | stop _ => rfl
    | more ends later => rw [empty] at ends; cases ends
  | more ends later ih =>
    cases other with
    | stop empty => rw [empty] at ends; cases ends
    | more sameEnd other =>
      rw [ends] at sameEnd
      cases sameEnd
      rw [ih other]

/-- No page ends between two items with the same cursor. -/
def Clean (cursor : α → κ) (limit : Nat) (items : List α) : Prop :=
  ∀ k a b, items[(k + 1) * limit - 1]? = some a → items[(k + 1) * limit]? = some b → cursor a ≠ cursor b

theorem clean_iff {cursor : α → κ} {items : List α} {limit : Nat} :
    Clean cursor limit items ↔ (∀ a b, items[limit - 1]? = some a → items[limit]? = some b → cursor a ≠ cursor b) ∧
      (0 < limit → Clean cursor limit (items.drop limit)) := by
  constructor
  · intro clean
    refine ⟨?_,?_⟩
    · intro a b isLast isNext
      exact clean 0 a b (by simpa using isLast) (by simpa using isNext)
    · intro positive k a b isLast isNext
      rw [List.getElem?_drop] at isLast isNext
      have one : limit + ((k + 1) * limit - 1) = (k + 1 + 1) * limit - 1 := by
        have more : limit ≤ (k + 1) * limit := Nat.le_mul_of_pos_left limit (by omega)
        rw [Nat.succ_mul (k + 1) limit]
        omega
      have two : limit + (k + 1) * limit = (k + 1 + 1) * limit := by rw [Nat.succ_mul (k + 1) limit]; omega
      rw [one] at isLast
      rw [two] at isNext
      exact clean (k + 1) a b isLast isNext
  · rintro ⟨first,later⟩ k a b isLast isNext
    cases k with
    | zero => exact first a b (by simpa using isLast) (by simpa using isNext)
    | succ k =>
      by_cases positive : 0 < limit
      · refine later positive k a b ?_ ?_
        · rw [List.getElem?_drop]
          rw [← isLast]
          congr 1
          have more : limit ≤ (k + 1) * limit := Nat.le_mul_of_pos_left limit (by omega)
          rw [Nat.succ_mul (k + 1) limit]
          omega
        · rw [List.getElem?_drop,← isNext]
          congr 1
          rw [Nat.succ_mul (k + 1) limit]
          omega
      · have zero : limit = 0 := by omega
        subst zero
        exact first a b (by simpa using isLast) (by simpa using isNext)

variable [LinearOrder κ]

/-- What is left behind the first page. -/
def behind (cursor : α → κ) (limit : Nat) (items : List α) : List α :=
  match (items.take limit).getLast? with
  | none => []
  | some last => (items.drop limit).filter (fun c => cursor last < cursor c)

theorem page_start (cursor : α → κ) (items : List α) (limit : Nat) : page cursor items limit none = items.take limit := by
  simp [page]

/-- Behind the last item of a page, the rest is read as a list of its own. -/
theorem filter_behind {cursor : α → κ} {items : List α} {limit : Nat} {last : α} (ordered : items.Pairwise (cursor · ≤ cursor ·))
    (ends : (items.take limit).getLast? = some last) (after : κ) (low : cursor last ≤ after) :
    items.filter (fun c => !(some after).any (fun a => cursor c ≤ a)) =
      (behind cursor limit items).filter (fun c => !(some after).any (fun a => cursor c ≤ a)) := by
  have front : (items.take limit).filter (fun c => !(some after).any (fun a => cursor c ≤ a)) = [] := by
    refine List.filter_eq_nil_iff.mpr ?_
    intro c member
    obtain ⟨before,split⟩ := List.getLast?_eq_some_iff.mp ends
    have sorted := ordered.sublist (List.take_sublist limit items)
    rw [split] at sorted member
    have below : cursor c ≤ cursor last := by
      rcases List.mem_append.mp member with early | here
      · exact (List.pairwise_append.mp sorted).2.2 c early last (by simp)
      · rw [List.mem_singleton.mp here]
    simp [le_trans below low]
  rw [behind,ends]
  dsimp only
  rw [List.filter_filter]
  nth_rewrite 1 [← List.take_append_drop limit items]
  rw [List.filter_append,front,List.nil_append]
  refine List.filter_congr ?_
  intro c _
  by_cases above : cursor last < cursor c
  · simp [above]
  · have seen : cursor c ≤ after := le_trans (not_lt.mp above) low
    simp [seen]

theorem behind_sublist (cursor : α → κ) (limit : Nat) (items : List α) : (behind cursor limit items).Sublist (items.drop limit) := by
  unfold behind
  split
  · exact List.nil_sublist _
  · exact List.filter_sublist

theorem getLast_take {items : List α} {limit : Nat} (positive : 0 < limit) (long : limit ≤ items.length) :
    (items.take limit).getLast? = items[limit - 1]? := by
  rw [List.getLast?_eq_getElem?,List.length_take,min_eq_left long,List.getElem?_take_of_lt (by omega)]

/-- Nothing is left out behind the first page if and only if it does not end among equal cursors. -/
theorem behind_eq_drop_iff {cursor : α → κ} {items : List α} {limit : Nat} (positive : 0 < limit)
    (ordered : items.Pairwise (cursor · ≤ cursor ·)) : behind cursor limit items = items.drop limit ↔
      ∀ a b, items[limit - 1]? = some a → items[limit]? = some b → cursor a ≠ cursor b := by
  by_cases short : items.length ≤ limit
  · have none : items.drop limit = [] := List.drop_eq_nil_of_le short
    have nothing := behind_sublist cursor limit items
    rw [none] at nothing
    rw [none,List.sublist_nil.mp nothing]
    simp [List.getElem?_eq_none short]
  · have long : limit < items.length := by omega
    have ends := getLast_take positive (Nat.le_of_lt long)
    have last : items[limit - 1]? = some items[limit - 1] := List.getElem?_eq_getElem (by omega)
    have next : items[limit]? = some items[limit] := List.getElem?_eq_getElem long
    have rises : cursor items[limit - 1] ≤ cursor items[limit] :=
      List.pairwise_iff_getElem.mp ordered (limit - 1) limit (by omega) long (by omega)
    have rest : items.drop limit = items[limit] :: items.drop (limit + 1) := List.drop_eq_getElem_cons long
    rw [behind,ends,last]
    dsimp only
    rw [List.filter_eq_self]
    constructor
    · intro higher a b isLast isNext
      cases isLast
      rw [next] at isNext
      cases isNext
      have above := higher items[limit] (by rw [rest]; exact List.mem_cons_self)
      exact ne_of_lt (of_decide_eq_true above)
    · intro distinct c member
      have above : cursor items[limit - 1] < cursor items[limit] :=
        lt_of_le_of_ne rises (distinct _ _ rfl next)
      have sorted := ordered.sublist (List.drop_sublist limit items)
      rw [rest] at sorted member
      have later : cursor items[limit] ≤ cursor c := by
        rcases List.mem_cons.mp member with rfl | later
        · exact le_refl _
        · exact (List.pairwise_cons.mp sorted).1 c later
      exact decide_eq_true (lt_of_lt_of_le above later)

/-- The pages of a list whose cursors rise end, and make up the list if and only if they are clean. -/
theorem read_pages {cursor : α → κ} {limit : Nat} (positive : 0 < limit) (whole : List α) (after : Option κ) (items : List α)
    (ordered : items.Pairwise (cursor · ≤ cursor ·))
    (here : ∀ a, after = none ∨ (∃ b, after = some b ∧ b ≤ a) → whole.filter (fun c => !(some a).any (fun a => cursor c ≤ a)) =
      items.filter (fun c => !(some a).any (fun a => cursor c ≤ a)))
    (start : page cursor whole limit after = items.take limit) :
    ∃ found, Read (page cursor whole limit) cursor after found ∧ found.Sublist items ∧
      (found = items ↔ Clean cursor limit items) := by
  induction size : items.length using Nat.strong_induction_on generalizing after items with
  | _ n ih =>
    cases ends : (items.take limit).getLast? with
    | none =>
      have nothing : items = [] := by
        rcases List.take_eq_nil_iff.mp (List.getLast?_eq_none_iff.mp ends) with zero | none
        · omega
        · exact none
      refine ⟨[],.stop (by rw [start,nothing,List.take_nil]),by rw [nothing],?_⟩
      rw [nothing]
      simp [Clean]
    | some last =>
      have long : 0 < items.length := by
        rcases Nat.eq_zero_or_pos items.length with zero | more
        · rw [List.length_eq_zero_iff.mp zero,List.take_nil] at ends
          cases ends
        · exact more
      have under := behind_sublist cursor limit items
      have shorter : (behind cursor limit items).length < n := by
        have size' := under.length_le
        rw [List.length_drop] at size'
        omega
      have seen : after = none ∨ ∃ b, after = some b ∧ b ≤ cursor last := by
        cases after with
        | none => exact .inl rfl
        | some b =>
          refine .inr ⟨b,rfl,?_⟩
          have member : last ∈ page cursor whole limit (some b) := by
            rw [start]
            exact List.mem_of_getLast? ends
          have unseen := (List.mem_filter.mp (List.mem_of_mem_take member)).2
          simp only [Option.any_some,Bool.not_eq_true',decide_eq_false_iff_not,not_le] at unseen
          exact le_of_lt unseen
      have same : ∀ a, cursor last ≤ a → whole.filter (fun c => !(some a).any (fun a => cursor c ≤ a)) =
          (behind cursor limit items).filter (fun c => !(some a).any (fun a => cursor c ≤ a)) := by
        intro a low
        have reached : after = none ∨ ∃ b, after = some b ∧ b ≤ a := by
          rcases seen with none | ⟨b,isSome,below⟩
          · exact .inl none
          · exact .inr ⟨b,isSome,le_trans below low⟩
        rw [here a reached]
        exact filter_behind ordered ends a low
      have allAbove : (behind cursor limit items).filter (fun c => !(some (cursor last)).any (fun a => cursor c ≤ a)) =
          behind cursor limit items := by
        refine List.filter_eq_self.mpr ?_
        intro c member
        rw [behind,ends] at member
        have above := of_decide_eq_true (List.mem_filter.mp member).2
        simp [above]
      obtain ⟨found,read,part,exact⟩ := ih _ shorter (some (cursor last)) (behind cursor limit items)
        (ordered.sublist (under.trans (List.drop_sublist limit items)))
        (by
          rintro a (none | ⟨b,isSome,low⟩)
          · cases none
          · cases isSome
            exact same a low)
        (by rw [page,same _ (le_refl _),allAbove]) rfl
      refine ⟨items.take limit ++ found,?_,?_,?_⟩
      · rw [← start]
        exact .more (by rw [start]; exact ends) read
      · have joined := (List.Sublist.refl (items.take limit)).append (part.trans under)
        rwa [List.take_append_drop] at joined
      · rw [clean_iff,← behind_eq_drop_iff positive ordered]
        constructor
        · intro all
          have rest : found = items.drop limit := by
            have split := List.take_append_drop limit items
            rw [← all] at split
            nth_rewrite 1 [all] at split
            exact (List.append_cancel_left (split.trans rfl).symm).trans (by rw [all])
          have full : behind cursor limit items = items.drop limit := by
            refine under.eq_of_length_le ?_
            rw [← rest]
            exact part.length_le
          refine ⟨full,fun _ => ?_⟩
          rw [← full,← exact]
          rw [full]
          exact rest
        · rintro ⟨full,clean⟩
          have rest : found = behind cursor limit items := exact.mpr (by rw [full]; exact clean positive)
          rw [rest,full,List.take_append_drop]

end Paging
