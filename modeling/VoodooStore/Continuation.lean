import VoodooStore.Disk
import VoodooStore.Unrepaired

/-!
# Feeds that go on in another file

A file that was made from a store holds the feed of that store. Whoever follows
the feed wants it to go on there: nothing it listed may be lost, and what is
new must come after it (`AppendsOnly`), also for those who have seen changes that
were pruned since (`GoesOn`). That is so if and only if the log of the file knows
transaction numbers as high as those in the feed, or as those that were seen
(`appends_only_iff`, `goes_on_iff`).
-/
namespace VoodooStore
open Effects Frames
set_option linter.unusedSimpArgs false

/-- What `changes_after` lists from the start and without a limit. -/
def Store.Lists (self : Store) (feed : List ChangeRecord) : Prop :=
  ∀ limit, feed.length ≤ limit → self.changes_after none limit = .ok feed

theorem Store.Lists.unique {self : Store} {first second : List ChangeRecord} (one : self.Lists first)
    (other : self.Lists second) : first = second := by
  have left := one (max first.length second.length) (Nat.le_max_left _ _)
  have right := other (max first.length second.length) (Nat.le_max_right _ _)
  rw [left] at right
  exact Except.ok.inj right

theorem Fed.lists {self : Store} {feed : List ChangeRecord} (fed : Fed self.state feed) : self.Lists feed :=
  fun _ enough => changes_after_all fed enough

/-! ## Storing a change anywhere -/

instance : DecidableRel ChangeRecord.Before := fun a b =>
  inferInstanceAs (Decidable (a.tx_id < b.tx_id ∨ a.tx_id = b.tx_id ∧ a.sequence < b.sequence))

theorem ChangeRecord.Before.trans {a b c : ChangeRecord} (low : a.Before b) (high : b.Before c) : a.Before c := by
  rcases low with less | ⟨same,less⟩
  · rcases high with more | ⟨equal,-⟩
    · exact .inl (UInt64.lt_trans less more)
    · rw [equal] at less
      exact .inl less
  · rcases high with more | ⟨equal,more⟩
    · rw [← same] at more
      exact .inl more
    · exact .inr ⟨same.trans equal,UInt32.lt_trans less more⟩

theorem before_cases (a b : ChangeRecord) : a.Before b ∨ a.entry.1 = b.entry.1 ∨ b.Before a := by
  rcases Nat.lt_trichotomy a.tx_id.toNat b.tx_id.toNat with less | same | more
  · exact .inl (.inl (UInt64.lt_iff_toNat_lt.mpr less))
  · have sameTx : a.tx_id = b.tx_id := UInt64.toNat_inj.mp same
    rcases Nat.lt_trichotomy a.sequence.toNat b.sequence.toNat with less | equal | more
    · exact .inl (.inr ⟨sameTx,UInt32.lt_iff_toNat_lt.mpr less⟩)
    · right
      left
      rw [ChangeRecord.entry,ChangeRecord.entry,sameTx,UInt32.toNat_inj.mp equal]
    · exact .inr (.inr (.inr ⟨sameTx.symm,UInt32.lt_iff_toNat_lt.mpr more⟩))
  · exact .inr (.inr (.inl (UInt64.lt_iff_toNat_lt.mpr more)))

theorem before_key_ne {a b : ChangeRecord} (before : a.Before b) : a.entry.1 ≠ b.entry.1 := by
  intro same
  have less : compare a.entry.1 b.entry.1 = .lt := change_key_before before
  have itself : compare b.entry.1 b.entry.1 = .eq := Std.ReflCmp.compare_self
  rw [same,itself] at less
  cases less

/-- A change takes its place among the others; one that was stored there is gone. -/
theorem Fed.replace {state : State} {feed : List ChangeRecord} (fed : Fed state feed) {c : ChangeRecord}
    (described : c.Described) (encodes : ∃ encoded, encode_change c = .ok encoded) :
    Fed (apply_operation state c.store)
      (feed.filter (fun d => d.Before c) ++ c :: feed.filter (fun d => c.Before d)) := by
  have members : ∀ d, d ∈ feed.filter (fun d => d.Before c) ++ c :: feed.filter (fun d => c.Before d) ↔
      d = c ∨ d ∈ feed ∧ d.entry.1 ≠ c.entry.1 := by
    intro d
    simp only [List.mem_append,List.mem_cons,List.mem_filter,decide_eq_true_eq]
    constructor
    · rintro (⟨member,before⟩ | rfl | ⟨member,before⟩)
      · exact .inr ⟨member,before_key_ne before⟩
      · exact .inl rfl
      · exact .inr ⟨member,(before_key_ne before).symm⟩
    · rintro (rfl | ⟨member,distinct⟩)
      · exact .inr (.inl rfl)
      · rcases before_cases d c with before | same | behind
        · exact .inl ⟨member,before⟩
        · exact absurd same distinct
        · exact .inr (.inr ⟨member,behind⟩)
  refine ⟨?_,?_,?_⟩
  · intro key value own
    simp only [ChangeRecord.store,apply_operation,Std.ExtTreeMap.getElem?_insert,Std.LawfulEqOrd.compare_eq_iff_eq,members]
    by_cases here : change_key c.tx_id c.sequence = key
    · rw [if_pos here]
      constructor
      · intro same
        exact ⟨c,.inl rfl,by rw [ChangeRecord.entry,here,Option.some.inj same]⟩
      · rintro ⟨d,rfl | ⟨member,distinct⟩,stored⟩
        · exact congrArg some (congrArg Prod.snd stored)
        · refine absurd ?_ distinct
          rw [stored]
          exact here.symm
    · rw [if_neg here,fed.stored key value own]
      constructor
      · rintro ⟨d,member,stored⟩
        refine ⟨d,.inr ⟨member,?_⟩,stored⟩
        rw [stored]
        exact fun same => here same.symm
      · rintro ⟨d,rfl | ⟨member,-⟩,stored⟩
        · exact absurd (congrArg Prod.fst stored) here
        · exact ⟨d,member,stored⟩
  · refine List.pairwise_append.mpr ⟨fed.ordered.filter _,List.pairwise_cons.mpr ⟨?_,fed.ordered.filter _⟩,?_⟩
    · intro d member
      exact of_decide_eq_true (List.mem_filter.mp member).2
    · intro d front e behind
      have before : d.Before c := of_decide_eq_true (List.mem_filter.mp front).2
      rcases List.mem_cons.mp behind with rfl | later
      · exact before
      · exact before.trans (of_decide_eq_true (List.mem_filter.mp later).2)
  · intro d member
    rcases (members d).mp member with rfl | ⟨inFeed,-⟩
    · exact ⟨described,encodes⟩
    · exact fed.readable d inFeed

theorem Fed.replaces {state : State} {feed changes : List ChangeRecord} (fed : Fed state feed)
    (readable : ∀ c ∈ changes, c.Described ∧ ∃ encoded, encode_change c = .ok encoded) :
    ∃ feed, Fed (apply_operations state (changes.map ChangeRecord.store)) feed := by
  induction changes generalizing state feed with
  | nil => exact ⟨feed,fed⟩
  | cons c changes ih =>
    obtain ⟨described,encodes⟩ := readable c (by simp)
    exact ih (fed.replace described encodes) (fun d member => readable d (by simp [member]))

/-- A reader who has seen a number below those of the new changes is told of them. -/
theorem polls_new {store : Store} {old new : List ChangeRecord} {seen : UInt64} (fed : Fed store.state (old ++ new))
    (later : ∀ c ∈ new, seen < c.tx_id) (limit : Nat) :
    store.changes_after (some seen) limit = .ok ((old.filter (fun d => seen < d.tx_id) ++ new).take limit) := by
  have unseen : ∀ c : ChangeRecord, (!(some seen).any (fun after => decide (c.tx_id ≤ after))) = decide (seen < c.tx_id) := by
    intro c
    simp [← UInt64.not_le]
  have newUnseen : new.filter (fun c => seen < c.tx_id) = new :=
    List.filter_eq_self.mpr (fun c member => decide_eq_true (later c member))
  rw [changes_after_eq fed]
  simp only [unseen]
  rw [List.filter_append,newUnseen]

section
variable [Hashes]

/-! ## Going on -/

/-- The log has numbers as high as the given ones. -/
def Logged (file : Bytes) (told : List UInt64) : Prop := ∀ id ∈ told, ∃ r ∈ records file, id ≤ r.tx_id

theorem Logged.front {file longer : Bytes} {told : List UInt64} (logged : Logged file told) (front : file <+: longer) :
    Logged longer told := by
  intro id member
  obtain ⟨r,inLog,low⟩ := logged id member
  exact ⟨r,(records_front front).subset inLog,low⟩

/-- Reopening finds the feed again, and its numbers are still below the next one. -/
theorem reopen_feeds {io : Io} {path : Path} {options : StoreOptions} {store t : Store} {left : Bytes}
    {feed : List ChangeRecord} {told : List UInt64} (feeds : (Session.Idle store).Feeds feed told) (sound : store.Sound)
    (logged : Logged store.file told) (opened : open_with_options io path options store.file = .ok t left) :
    (Session.Idle t).Feeds feed told ∧ records t.file = records store.file := by
  obtain ⟨-,-,recovery,started,opens⟩ := open_ok opened
  obtain ⟨stored,read,-⟩ := open_sound opens (.inr sound.file)
  refine ⟨⟨?_,feeds.known,?_,by simp⟩,read⟩
  · show Fed t.state feed
    rw [stored.state,read,← sound.state]
    exact feeds.fed
  · intro id member
    obtain ⟨r,inLog,low⟩ := logged id member
    rw [← read] at inLog
    exact UInt64.lt_of_le_of_lt low (stored.log.identified r inLog)

/-- What is done with a store after a first part of its use adds to the feed, under
    higher numbers than those it told before. -/
theorem steps_continue {start : Site} {first second : List Action} {feed : List ChangeRecord} {told : List UInt64}
    (feeds : (start.steps first).session.Feeds feed told)
    (kept : (∀ a ∈ first, a.Durable) → (start.steps first).Kept ∧ Logged (start.steps first).session.store.file told)
    (use : OrdinaryUse (first ++ second)) (unpruned : ∀ io tx_id limit, .Prune io tx_id limit ∉ second) :
    ∃ more, (start.steps (first ++ second)).history = (start.steps first).history ++ more ∧
      (start.steps (first ++ second)).session.Feeds (feed ++ more.flatMap Entry.changes)
        (told ++ more.map (fun entry => entry.tx_id)) ∧
      (∀ entry ∈ more, ∀ id ∈ told, id < entry.tx_id) ∧
      ((∀ a ∈ first ++ second, a.Durable) → (start.steps (first ++ second)).Kept ∧
        Logged (start.steps (first ++ second)).session.store.file (told ++ more.map (fun entry => entry.tx_id))) := by
  induction second using List.reverseRecOn with
  | nil =>
    rw [List.append_nil]
    exact ⟨[],by simp,by simpa using feeds,by simp,by simpa using kept⟩
  | append_singleton second action ih =>
    rw [← List.append_assoc] at use ⊢
    have ordinary := use.ordinary action (by simp)
    obtain ⟨more,grown,feedsSoFar,later,keptSoFar⟩ := ih use.front
      (fun io tx_id limit member => unpruned io tx_id limit (List.mem_append_left _ member))
    rw [site_steps_snoc]
    generalize start.steps (first ++ second) = site at grown feedsSoFar keptSoFar
    have earlier : (∀ a ∈ first ++ second ++ [action], a.Durable) → ∀ a ∈ first ++ second, a.Durable :=
      fun durable a member => durable a (List.mem_append_left _ member)
    cases action with
    | Call io event =>
      obtain ⟨⟨session,history⟩,pruned⟩ := site
      dsimp only at grown
      obtain ⟨feedsNext,-,laterNext⟩ := @call_feeds _ session _ _ io event feedsSoFar ordinary
      have keptNext : (∀ a ∈ first ++ second ++ [.Call io event], a.Durable) →
          (Site.mk (Run.step ⟨session,history⟩ io event) pruned).Kept := by
        intro durable
        exact call_kept (keptSoFar (earlier durable)).1 (durable (.Call io event) (by simp))
      have front : session.store.file <+: (Run.step ⟨session,history⟩ io event).session.store.file :=
        stepped_file (step_cases ⟨session,history⟩ io event)
      have shifted := step_shift session history io event
      show ∃ more, (Site.mk (Run.step ⟨session,history⟩ io event) pruned).history = _ ++ more ∧ _
      refine ⟨more ++ (Run.step ⟨session,[]⟩ io event).history,?_,?_,?_,?_⟩
      · show (Run.step ⟨session,history⟩ io event).history = _
        rw [shifted,grown,List.append_assoc]
      · show (Run.step ⟨session,history⟩ io event).session.Feeds _ _
        rw [shifted,List.flatMap_append,List.map_append,← List.append_assoc,← List.append_assoc]
        exact feedsNext
      · intro entry member id old
        rcases List.mem_append.mp member with early | late
        · exact later entry early id old
        · exact laterNext entry late id (List.mem_append_left _ old)
      · intro durable
        have keeps := keptNext durable
        refine ⟨keeps,?_⟩
        intro id member
        rw [List.map_append,← List.append_assoc] at member
        rcases List.mem_append.mp member with old | new
        · exact (keptSoFar (earlier durable)).2.front front id old
        · obtain ⟨entry,inHistory,rfl⟩ := List.mem_map.mp new
          have known : entry ∈ (Run.step ⟨session,history⟩ io event).history := by
            rw [shifted]
            exact List.mem_append_right _ inHistory
          obtain ⟨r,inLog,same⟩ := keeps.logged entry known
          exact ⟨r,inLog,UInt64.le_of_eq same.symm⟩
    | Prune io tx_id limit => exact absurd (List.mem_append_right _ (List.mem_singleton.mpr rfl)) (unpruned io tx_id limit)
    | Reopen io path options =>
      have durable := use.durable (first ++ second) io path options [] rfl
      obtain ⟨keptHere,loggedHere⟩ := keptSoFar durable
      have unchanged : ∃ more, site.history = (start.steps first).history ++ more ∧
          site.session.Feeds (feed ++ more.flatMap Entry.changes) (told ++ more.map (fun entry => entry.tx_id)) ∧
          (∀ entry ∈ more, ∀ id ∈ told, id < entry.tx_id) ∧
          ((∀ a ∈ first ++ second ++ [.Reopen io path options], a.Durable) → site.Kept ∧
            Logged site.session.store.file (told ++ more.map (fun entry => entry.tx_id))) :=
        ⟨more,grown,feedsSoFar,later,fun _ => ⟨keptHere,loggedHere⟩⟩
      unfold Site.step
      cases session : site.session with
      | Busy tx => exact unchanged
      | Idle store =>
        dsimp only
        cases opened : open_with_options io path options store.file with
        | error e left => exact unchanged
        | ok t left =>
          have sound := keptHere.session
          rw [session] at feedsSoFar loggedHere sound
          obtain ⟨feedsNext,read⟩ := reopen_feeds feedsSoFar sound loggedHere opened
          refine ⟨more,grown,feedsNext,later,fun _ => ⟨?_,?_⟩⟩
          · have keptNext := @reopen_kept _ site io path options keptHere
            unfold Site.step at keptNext
            rw [session] at keptNext
            dsimp only at keptNext
            rw [opened] at keptNext
            exact keptNext
          · show ∀ id ∈ _, ∃ r ∈ records t.file, id ≤ r.tx_id
            rw [read]
            exact loggedHere

/-- However the file is opened and used, without pruning: the changes of the
    given feed stay listed, what is new has higher numbers than all that was
    listed before, and so asking for what comes after the last one seen lists
    what is new. -/
def AppendsOnly (path : Path) (file : Bytes) (feed : List ChangeRecord) : Prop :=
  ∀ io options store left, open_with_options io path options file = .ok store left →
  ∀ first second, OrdinaryUse (first ++ second) → (∀ io tx_id limit, .Prune io tx_id limit ∉ first ++ second) →
  let start := Site.mk ⟨.Idle store,[]⟩ []
  ∃ old new, (start.steps first).session.store.Lists old ∧
    (start.steps (first ++ second)).session.store.Lists (old ++ new) ∧
    (∀ c ∈ feed, c ∈ old) ∧ (∀ c ∈ new, ∀ d ∈ old, d.tx_id < c.tx_id) ∧
    ∀ seen ∈ old, (∀ d ∈ old, d.tx_id ≤ seen.tx_id) → ∀ limit,
      (start.steps (first ++ second)).session.store.changes_after (some seen.tx_id) limit = .ok (new.take limit)

/-- The same for readers who have seen any of the given numbers elsewhere, also
    of changes that the file does not list: what is new has higher numbers than
    these, too, and asking for what comes after any number that was seen, here or
    there, lists all that is new. -/
def GoesOn (path : Path) (file : Bytes) (told : List UInt64) (feed : List ChangeRecord) : Prop :=
  ∀ io options store left, open_with_options io path options file = .ok store left →
  ∀ first second, OrdinaryUse (first ++ second) → (∀ io tx_id limit, .Prune io tx_id limit ∉ first ++ second) →
  let start := Site.mk ⟨.Idle store,[]⟩ []
  ∃ old new, (start.steps first).session.store.Lists old ∧
    (start.steps (first ++ second)).session.store.Lists (old ++ new) ∧
    (∀ c ∈ feed, c ∈ old) ∧ (∀ c ∈ new, ∀ id, id ∈ told ∨ id ∈ old.map (fun d => d.tx_id) → id < c.tx_id) ∧
    ∀ seen, seen ∈ told ∨ seen ∈ old.map (fun d => d.tx_id) → ∀ limit,
      (start.steps (first ++ second)).session.store.changes_after (some seen) limit =
        .ok ((old.filter (fun d => seen < d.tx_id) ++ new).take limit)

/-- If the log knows numbers as high as those that were seen, the feed goes on. -/
theorem logged_goes_on {file : Bytes} {told : List UInt64} {feed : List ChangeRecord} (path : Path) (sound : FileSound file)
    (whole : fragment file = []) (fed : Fed (committedState (records file)) feed) (known : ∀ c ∈ feed, c.tx_id ∈ told)
    (logged : Logged file told) : GoesOn path file told feed := by
  intro io options store left opened first second use unpruned start
  obtain ⟨-,-,recovery,started,opens⟩ := open_ok opened
  obtain ⟨stored,read,tail⟩ := open_sound opens (.inr sound)
  rw [whole,ite_self] at tail
  have unprunedFirst : ∀ io tx_id limit, .Prune io tx_id limit ∉ first :=
    fun io tx_id limit member => unpruned io tx_id limit (List.mem_append_left _ member)
  have unprunedSecond : ∀ io tx_id limit, .Prune io tx_id limit ∉ second :=
    fun io tx_id limit member => unpruned io tx_id limit (List.mem_append_right _ member)
  have useFirst : OrdinaryUse first := by
    refine ⟨fun a member => use.ordinary a (List.mem_append_left _ member),?_⟩
    intro before io path options later split
    refine use.durable before io path options (later ++ second) ?_
    rw [split,List.append_assoc]
    rfl
  have loggedHere : Logged store.file told := by
    intro id member
    rw [read]
    exact logged id member
  have feeds : start.session.Feeds feed told := by
    refine ⟨?_,known,?_,by simp [start]⟩
    · show Fed store.state feed
      rw [stored.state,read]
      exact fed
    · intro id member
      obtain ⟨r,inLog,low⟩ := loggedHere id member
      exact UInt64.lt_of_le_of_lt low (stored.log.identified r inLog)
  have kept : start.Kept := ⟨stored,tail,by simp [start]⟩
  obtain ⟨more,-,feedsFirst,-,keptFirst⟩ := @steps_continue _ start [] first _ _ feeds (fun _ => ⟨kept,loggedHere⟩) useFirst
    unprunedFirst
  rw [List.nil_append] at feedsFirst keptFirst
  obtain ⟨rest,-,feedsAll,later,-⟩ := steps_continue feedsFirst keptFirst use unprunedSecond
  have higher : ∀ c ∈ rest.flatMap Entry.changes, ∀ id,
      id ∈ told ∨ id ∈ (feed ++ more.flatMap Entry.changes).map (fun d => d.tx_id) → id < c.tx_id := by
    intro c member id seen
    obtain ⟨entry,inRest,tells⟩ := List.mem_flatMap.mp member
    rw [changes_tx_id tells]
    refine later entry inRest id ?_
    rcases seen with told | listed
    · exact List.mem_append_left _ told
    · obtain ⟨d,old,rfl⟩ := List.mem_map.mp listed
      exact feedsFirst.known d old
  refine ⟨feed ++ more.flatMap Entry.changes,rest.flatMap Entry.changes,feedsFirst.fed.lists,feedsAll.fed.lists,?_,higher,?_⟩
  · intro c member
    exact List.mem_append_left _ member
  · intro seen known limit
    exact polls_new feedsAll.fed (fun c member => higher c member seen known) limit

theorem GoesOn.appends {path : Path} {file : Bytes} {told : List UInt64} {feed : List ChangeRecord}
    (goes : GoesOn path file told feed) : AppendsOnly path file feed := by
  intro io options store left opened first second use unpruned start
  obtain ⟨old,new,listsOld,listsAll,kept,higher,polls⟩ := goes io options store left opened first second use unpruned
  have listed : ∀ d ∈ old, d.tx_id ∈ old.map (fun d => d.tx_id) := fun d member => List.mem_map.mpr ⟨d,member,rfl⟩
  refine ⟨old,new,listsOld,listsAll,kept,fun c member d before => higher c member d.tx_id (.inr (listed d before)),?_⟩
  intro seen member last limit
  have nothing : old.filter (fun d => seen.tx_id < d.tx_id) = [] := by
    refine List.filter_eq_nil_iff.mpr ?_
    intro d before
    simpa using last d before
  have polled := polls seen.tx_id (.inr (listed seen member)) limit
  rwa [nothing,List.nil_append] at polled

/-- The number that a store opened on a file gives next is at most as high as
    any that is above all numbers in the file. -/
theorem opened_next {io : Io} {path : Path} {options : StoreOptions} {file left : Bytes} {store : Store} {bound : UInt64}
    (opened : open_with_options io path options file = .ok store left) (positive : 0 < bound)
    (above : ∀ r ∈ records file, r.tx_id < bound) : store.next_tx_id ≤ bound := by
  obtain ⟨-,-,recovery,started,opens⟩ := open_ok opened
  obtain ⟨acc,replayed,-,reported⟩ := recover_ok_iff.mp opens.recovers
  rw [opens.starts.records.1] at replayed
  have counter := next_counter_ok opens.next_tx_id
  rw [reported] at counter
  change store.next_tx_id.toNat = acc.max_tx_id.toNat + 1 at counter
  have below : acc.max_tx_id < bound := by
    rw [(replay_ok replayed).txId]
    refine foldl_max_lt positive ?_
    intro t member
    obtain ⟨r,inLog,rfl⟩ := List.mem_map.mp member
    exact above r inLog
  have less := UInt64.lt_iff_toNat_lt.mp below
  exact UInt64.le_iff_toNat_le.mpr (by omega)

theorem put_change_readable {key : Bytes} (tx_id : UInt64) (value : Bytes) (fits : key.length < 2 ^ 32) :
    (putChange tx_id key value).Described ∧ ∃ encoded, encode_change (putChange tx_id key value) = .ok encoded := by
  refine ⟨?_,_,(put_change_spelling tx_id value fits).1⟩
  simp [ChangeRecord.Described,putChange]

/-- If a number is above all those in the log, a transaction is given that number,
    or a lower one, again, and makes a change that was not listed. -/
theorem number_given_again {file : Bytes} {feed : List ChangeRecord} {id : UInt64} (path : Path) (sound : FileSound file)
    (room : HasRoom file) (fed : Fed (committedState (records file)) feed) (positive : 0 < id)
    (above : ∀ r ∈ records file, r.tx_id < id) : ∃ io options store left actions later c,
      open_with_options io path options file = .ok store left ∧ OrdinaryUse ([] ++ actions) ∧
      (∀ io tx_id limit, .Prune io tx_id limit ∉ [] ++ actions) ∧ store.Lists feed ∧
      ((Site.mk ⟨.Idle store,[]⟩ []).steps ([] ++ actions)).session.store.Lists later ∧
      c ∈ later ∧ c ∉ feed ∧ c.tx_id ≤ id := by
  obtain ⟨store,left,opened⟩ := sound_opens path leaveTail calm_faultless (.inr sound)
  obtain ⟨-,unlimited,txRoom,sequenceRoom⟩ := opened_unrepaired sound room opened
  have low := opened_next opened positive above
  obtain ⟨-,-,recovery,started,opens⟩ := open_ok opened
  obtain ⟨stored,read,-⟩ := open_sound opens (.inr sound)
  have fedHere : Fed store.state feed := by
    rw [stored.state,read]
    exact fed
  -- A put whose change the feed does not have yet.
  have fresh : ∃ key : Bytes, ensure_user_key key = .ok () ∧ key.length ≤ 1 ∧ putChange store.next_tx_id key [] ∉ feed := by
    by_cases taken : putChange store.next_tx_id [] [] ∈ feed
    · refine ⟨[107],rfl,le_rfl,?_⟩
      intro also
      have same := fed.key_injective taken also rfl
      exact absurd (congrArg ChangeRecord.key same) (by simp [putChange])
    · exact ⟨[],rfl,by simp,taken⟩
  obtain ⟨key,user,short,absent⟩ := fresh
  obtain ⟨t,behind,steps,state,-,-⟩ := @put_transaction_succeeds _ calm store key [] [] calm_faultless unlimited user
    (by simp; omega) txRoom sequenceRoom
  obtain ⟨described,encodes⟩ := put_change_readable store.next_tx_id [] (show key.length < 2 ^ 32 by omega)
  have outside : starts_with (Operation.Put key []).key CDC_PREFIX = false := user_key_outside user
  have fedAfter := (fedHere.other outside).replace described encodes
  change Fed (apply_operations store.state (putOperations store.next_tx_id key [])) _ at fedAfter
  rw [← state] at fedAfter
  -- The same calls as a use of the store.
  let actions : List Action := [.Call calm .Begin,.Call calm (.Put key []),.Call calm .Commit]
  have use : OrdinaryUse ([] ++ actions) := by
    refine calls_use ?_
    intro a member
    simp only [actions,List.nil_append,List.mem_cons,List.not_mem_nil,or_false] at member
    rcases member with rfl | rfl | rfl
    · exact ⟨_,_,rfl,trivial⟩
    · exact ⟨_,_,rfl,trivial⟩
    · exact ⟨_,_,rfl,trivial⟩
  have ends : ((Site.mk ⟨.Idle store,[]⟩ []).steps ([] ++ actions)).session.store = t := by
    have same : ((Site.mk ⟨.Idle store,[]⟩ []).steps ([] ++ actions)).toRun =
        Run.steps ⟨.Idle store,[]⟩ (putCalls calm key []) := rfl
    rw [same,steps]
    rfl
  have lists := fedAfter.lists
  rw [← ends] at lists
  exact ⟨calm,leaveTail,store,left,actions,_,putChange store.next_tx_id key [],opened,use,by simp [actions],fedHere.lists,lists,
    by simp,absent,low⟩

/-- The feed goes on if and only if the log knows numbers as high as its own. -/
theorem appends_only_iff {file : Bytes} {feed : List ChangeRecord} {path : Path} (sound : FileSound file)
    (whole : fragment file = []) (room : HasRoom file) (fed : Fed (committedState (records file)) feed) :
    AppendsOnly path file feed ↔ Logged file (feed.map (fun c => c.tx_id)) := by
  refine ⟨?_,fun logged => (logged_goes_on path sound whole fed (fun c member => List.mem_map.mpr ⟨c,member,rfl⟩) logged).appends⟩
  intro appends
  by_contra unlogged
  simp only [Logged,not_forall,not_exists,not_and] at unlogged
  obtain ⟨id,told,above⟩ := unlogged
  obtain ⟨d,member,rfl⟩ := List.mem_map.mp told
  have below : ∀ r ∈ records file, r.tx_id < d.tx_id := fun r inLog => UInt64.not_le.mp (above r inLog)
  have some_records : records file ≠ [] := by
    intro none
    have found := (fed.stored d.entry.1 d.entry.2 (change_key_starts _ _)).mpr ⟨d,member,rfl⟩
    rw [none] at found
    simp [committedState,commits] at found
  obtain ⟨r,inLog⟩ := List.exists_mem_of_ne_nil _ some_records
  have positive := UInt64.lt_of_le_of_lt UInt64.zero_le (below r inLog)
  obtain ⟨io,options,store,left,actions,later,c,opened,use,unpruned,listsFeed,listsLater,new,absent,low⟩ :=
    number_given_again path sound room fed positive below
  obtain ⟨old,more,listsOld,listsAll,-,higher,-⟩ := appends io options store left opened [] actions use unpruned
  rw [listsLater.unique listsAll,listsOld.unique listsFeed] at new
  rw [listsOld.unique listsFeed] at higher
  rcases List.mem_append.mp new with inFeed | inNew
  · exact absent inFeed
  · exact absurd (UInt64.lt_of_lt_of_le (higher c inNew d member) low) (UInt64.lt_irrefl _)

/-- The map stores some feed, and the open transaction will tell it of itself. -/
structure Session.Legible (session : Session) : Prop where
  fed : ∃ feed, Fed session.store.state feed
  tells : ∀ tx, session = .Busy tx → tx.Tells

theorem call_legible {session : Session} {io : Io} {event : Event} (legible : session.Legible) (ordinary : event.Ordinary) :
    (Run.step ⟨session,[]⟩ io event).session.Legible := by
  refine ⟨?_,fun u busy => @step_tells _ ⟨session,[]⟩ io event ordinary legible.tells u busy⟩
  have stepped := step_cases ⟨session,[]⟩ io event
  generalize Run.step ⟨session,[]⟩ io event = next at stepped
  obtain ⟨feed,fed⟩ := legible.fed
  cases stepped with
  | stays => exact ⟨feed,fed⟩
  | @begins store emit_cdc tx idle begun =>
    obtain ⟨-,-,-,-,-,borrowed⟩ := begin_ok begun
    dsimp only at idle
    rw [idle] at fed
    refine ⟨feed,?_⟩
    show Fed tx.store.state feed
    rw [borrowed]
    exact fed
  | stages busy staged torn =>
    dsimp only at busy
    rw [busy] at fed
    exact ⟨feed,staged.grown.state.symm ▸ fed⟩
  | ends busy staged torn =>
    dsimp only at busy
    rw [busy] at fed
    exact ⟨feed,staged.grown.state.symm ▸ fed⟩
  | unconfirmed busy written same unsynced strict =>
    dsimp only at busy
    rw [busy] at fed
    exact ⟨feed,same.symm ▸ fed⟩
  | @commits tx u rs r busy written applied =>
    dsimp only at busy
    rw [busy] at fed
    have telling := legible.tells tx busy
    have countable := written.countable telling.emits
    obtain ⟨-,facts⟩ := changesFrom_ordered (n := 0) (by rw [Nat.zero_add]; exact countable)
    obtain ⟨later,fedLater⟩ := (fed.others telling.outside).replaces
      (fun c member => ⟨(facts c member).2.2,written.encodes telling.emits c member⟩)
    refine ⟨later,?_⟩
    show Fed u.store.state later
    rw [applied,written.operations,ownChanges,if_pos telling.emits,apply_operations,List.foldl_append]
    exact fedLater

/-- Ordinary use keeps a feed in the store, also where its numbers are given again. -/
theorem steps_legible {site : Site} {actions : List Action} (legible : site.session.Legible) (kept : site.Kept)
    (use : OrdinaryUse actions) :
    (site.steps actions).session.Legible ∧ ((∀ a ∈ actions, a.Durable) → (site.steps actions).Kept) := by
  induction actions using List.reverseRecOn with
  | nil => exact ⟨legible,fun _ => kept⟩
  | append_singleton actions action ih =>
    obtain ⟨legibleSoFar,keptSoFar⟩ := ih use.front
    have ordinary := use.ordinary action (by simp)
    have earlier : (∀ a ∈ actions ++ [action], a.Durable) → (site.steps actions).Kept :=
      fun durable => keptSoFar (fun a member => durable a (List.mem_append_left _ member))
    rw [site_steps_snoc]
    generalize site.steps actions = middle at legibleSoFar keptSoFar earlier
    cases action with
    | Call io event =>
      obtain ⟨⟨session,history⟩,pruned⟩ := middle
      refine ⟨?_,fun durable => call_kept (earlier durable) (durable (.Call io event) (by simp))⟩
      show (Run.step ⟨session,history⟩ io event).session.Legible
      rw [step_shift session history io event]
      exact call_legible legibleSoFar ordinary
    | Prune io tx_id limit =>
      obtain ⟨feed,fed⟩ := legibleSoFar.fed
      refine ⟨?_,fun durable => prune_kept fed (earlier durable) (durable (.Prune io tx_id limit) (by simp))⟩
      unfold Site.step
      cases session : middle.session with
      | Busy tx =>
        rw [session] at legibleSoFar
        dsimp only
        rw [session]
        exact legibleSoFar
      | Idle store =>
        rw [session] at fed
        dsimp only
        cases result : prune_changes_through io tx_id limit store with
        | ok n t => exact ⟨⟨_,(prune_ok fed result).2.1⟩,by simp⟩
        | error e t => exact ⟨⟨_,(prune_error fed result).1⟩,by simp⟩
    | Reopen io path options =>
      have keptHere := keptSoFar (use.durable actions io path options [] rfl)
      refine ⟨?_,fun _ => reopen_kept keptHere⟩
      unfold Site.step
      cases session : middle.session with
      | Busy tx =>
        rw [session] at legibleSoFar
        dsimp only
        rw [session]
        exact legibleSoFar
      | Idle store =>
        rw [session] at legibleSoFar
        dsimp only
        cases opened : open_with_options io path options store.file with
        | error e left =>
          dsimp only
          rw [session]
          exact legibleSoFar
        | ok t left =>
          have sound := keptHere.session
          rw [session] at sound
          obtain ⟨-,-,recovery,started,opens⟩ := open_ok opened
          obtain ⟨stored,read,-⟩ := open_sound opens (.inr sound.file)
          obtain ⟨feed,fed⟩ := legibleSoFar.fed
          refine ⟨⟨feed,?_⟩,by simp⟩
          show Fed t.state feed
          rw [stored.state,read,← sound.state]
          exact fed

end

end VoodooStore
