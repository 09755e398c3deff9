import Mathlib

/-!
# Leased work

Pieces of work are added once, claimed by workers under a generation that every
claim raises, and settled by the worker that holds them. A claim that ran out may
be superseded by the next one, so that a worker may come back with a generation
that is no longer the latest. `Step` is what may happen to the work and `Run` a
history of it; the results are about histories alone.
-/
namespace Leases
variable {κ : Type}

inductive Phase
  | Waiting
  | Held
  | Retired
  | Gone
  deriving DecidableEq

/-- The phase of a piece of work, and the generation of its latest claim. -/
structure Item where
  phase : Phase
  generation : Nat
  deriving DecidableEq

def Phase.Open (phase : Phase) : Prop := phase = .Waiting ∨ phase = .Held

/-- What became of every piece of work that was ever added. -/
abbrev Ledger (κ : Type) := κ → Option Item

inductive Event (κ : Type)
  | Added (k : κ)
  | Claimed (k : κ) (generation : Nat)
  | Settled (k : κ) (generation : Nat) (phase : Phase)
  | Withdrawn (k : κ) (phase : Phase)
  | Revived (k : κ)
  | Purged
  deriving DecidableEq

/-- The piece of work that an event names. -/
def Event.about : Event κ → Option κ
  | .Added k => some k
  | .Claimed k _ => some k
  | .Settled k _ _ => some k
  | .Withdrawn k _ => some k
  | .Revived k => some k
  | .Purged => none

def purge (item : Item) : Item := if item.phase = .Retired then { item with phase := .Gone } else item

variable [DecidableEq κ]

/-- The event may happen, and leads to this ledger. -/
inductive Step (ledger : Ledger κ) : Event κ → Ledger κ → Prop
  | added {k : κ} (fresh : ledger k = none) : Step ledger (.Added k) (Function.update ledger k (some ⟨.Waiting,0⟩))
  | claimed {k : κ} {phase : Phase} {g : Nat} (known : ledger k = some ⟨phase,g⟩) (free : phase.Open) :
      Step ledger (.Claimed k (g + 1)) (Function.update ledger k (some ⟨.Held,g + 1⟩))
  | settled {k : κ} {g : Nat} (held : ledger k = some ⟨.Held,g⟩) (phase : Phase) :
      Step ledger (.Settled k g phase) (Function.update ledger k (some ⟨phase,g⟩))
  | withdrawn {k : κ} {phase : Phase} {g : Nat} (known : ledger k = some ⟨phase,g⟩) (free : phase.Open) (next : Phase)
      (unheld : next ≠ .Held) : Step ledger (.Withdrawn k next) (Function.update ledger k (some ⟨next,g⟩))
  | revived {k : κ} {g : Nat} (retired : ledger k = some ⟨.Retired,g⟩) :
      Step ledger (.Revived k) (Function.update ledger k (some ⟨.Waiting,g⟩))
  | purged : Step ledger .Purged (fun k => (ledger k).map purge)

/-- A history, and the ledger that it leads to. -/
inductive Run : List (Event κ) → Ledger κ → Prop
  | start : Run [] (fun _ => none)
  | next {events : List (Event κ)} {ledger later : Ledger κ} {event : Event κ} (run : Run events ledger)
      (step : Step ledger event later) : Run (events ++ [event]) later

theorem Run.snoc {events : List (Event κ)} {event : Event κ} {later : Ledger κ} (run : Run (events ++ [event]) later) :
    ∃ ledger, Run events ledger ∧ Step ledger event later := by
  generalize whole : events ++ [event] = all at run
  cases run with
  | start => simp at whole
  | next run step =>
    obtain ⟨rfl,last⟩ := List.append_inj' whole rfl
    cases last
    exact ⟨_,run,step⟩

/-- Every front of a history is one. -/
theorem Run.front {before after : List (Event κ)} {later : Ledger κ} (run : Run (before ++ after) later) :
    ∃ ledger, Run before ledger := by
  induction after using List.reverseRecOn generalizing later with
  | nil =>
    rw [List.append_nil] at run
    exact ⟨later,run⟩
  | append_singleton after event ih =>
    rw [← List.append_assoc] at run
    obtain ⟨ledger,earlier,-⟩ := run.snoc
    exact ih earlier

/-- What happens to a piece of work that an event names not, or that is purged. -/
theorem Step.elsewhere {ledger later : Ledger κ} {event : Event κ} {k : κ} (step : Step ledger event later)
    (other : event.about ≠ some k) : later k = ledger k ∨ (event = .Purged ∧ later k = (ledger k).map purge) := by
  cases step with
  | purged => exact .inr ⟨rfl,rfl⟩
  | added _ => exact .inl (Function.update_of_ne (fun same => other (by rw [same]; rfl)) _ _)
  | claimed _ _ => exact .inl (Function.update_of_ne (fun same => other (by rw [same]; rfl)) _ _)
  | settled _ _ => exact .inl (Function.update_of_ne (fun same => other (by rw [same]; rfl)) _ _)
  | withdrawn _ _ _ _ => exact .inl (Function.update_of_ne (fun same => other (by rw [same]; rfl)) _ _)
  | revived _ => exact .inl (Function.update_of_ne (fun same => other (by rw [same]; rfl)) _ _)

theorem purge_generation (item : Item) : (purge item).generation = item.generation := by
  unfold purge
  split <;> rfl

/-- Generations never fall, and no work is forgotten. -/
theorem Step.rises {ledger later : Ledger κ} {event : Event κ} {k : κ} {item : Item} (step : Step ledger event later)
    (known : ledger k = some item) : ∃ next, later k = some next ∧ item.generation ≤ next.generation := by
  by_cases named : event.about = some k
  · cases step with
    | added fresh => cases named; rw [known] at fresh; cases fresh
    | claimed here free =>
      cases named
      rw [known] at here
      cases here
      exact ⟨_,Function.update_self _ _ _,Nat.le_succ _⟩
    | settled held phase =>
      cases named
      rw [known] at held
      cases held
      exact ⟨_,Function.update_self _ _ _,Nat.le_refl _⟩
    | withdrawn here free next unheld =>
      cases named
      rw [known] at here
      cases here
      exact ⟨_,Function.update_self _ _ _,Nat.le_refl _⟩
    | revived retired =>
      cases named
      rw [known] at retired
      cases retired
      exact ⟨_,Function.update_self _ _ _,Nat.le_refl _⟩
    | purged => cases named
  · rcases step.elsewhere named with same | ⟨-,same⟩
    · exact ⟨item,by rw [same,known],Nat.le_refl _⟩
    · refine ⟨purge item,by rw [same,known]; rfl,?_⟩
      rw [purge_generation]

/-! ## Claims -/

def claims (events : List (Event κ)) : List (κ × Nat) := events.filterMap (fun event =>
  match event with
  | .Claimed k g => some (k,g)
  | _ => none)

def adds (events : List (Event κ)) : List κ := events.filterMap (fun event =>
  match event with
  | .Added k => some k
  | _ => none)

omit [DecidableEq κ] in
theorem mem_claims {events : List (Event κ)} {k : κ} {g : Nat} : (k,g) ∈ claims events ↔ .Claimed k g ∈ events := by
  rw [claims,List.mem_filterMap]
  constructor
  · rintro ⟨event,member,found⟩
    cases event <;> cases found
    exact member
  · intro member
    exact ⟨_,member,rfl⟩

/-- Whatever was claimed is known under a generation that is at least as high. -/
theorem Run.claimed {events : List (Event κ)} {ledger : Ledger κ} (run : Run events ledger) {k : κ} {g : Nat}
    (member : .Claimed k g ∈ events) : ∃ item, ledger k = some item ∧ g ≤ item.generation := by
  induction run with
  | start => cases member
  | next run step ih =>
    rcases List.mem_append.mp member with early | here
    · obtain ⟨item,known,low⟩ := ih early
      obtain ⟨next,later,rises⟩ := step.rises known
      exact ⟨next,later,Nat.le_trans low rises⟩
    · cases List.mem_singleton.mp here
      cases step with
      | claimed known free => exact ⟨_,Function.update_self _ _ _,Nat.le_refl _⟩

/-- No generation of a piece of work is handed out twice, and they rise. -/
theorem Run.claims_rise {events : List (Event κ)} {ledger : Ledger κ} (run : Run events ledger) :
    (claims events).Pairwise (fun a b => a.1 = b.1 → a.2 < b.2) := by
  induction run with
  | start => exact .nil
  | @next events before later event run step ih =>
    rw [claims,List.filterMap_append]
    refine List.pairwise_append.mpr ⟨ih,?_,?_⟩
    · cases event <;> simp
    · rintro ⟨k,g⟩ early ⟨k',g'⟩ here rfl
      cases event with
      | Claimed j h =>
        cases List.mem_singleton.mp here
        obtain ⟨item,known,low⟩ := run.claimed (mem_claims.mp early)
        cases step with
        | claimed claimable free =>
          rw [known] at claimable
          cases claimable
          exact Nat.lt_succ_of_le low
      | _ => cases here

/-- Whatever was added is known. -/
theorem Run.added {events : List (Event κ)} {ledger : Ledger κ} (run : Run events ledger) {k : κ} (member : .Added k ∈ events) :
    ∃ item, ledger k = some item := by
  induction run with
  | start => cases member
  | next run step ih =>
    rcases List.mem_append.mp member with early | here
    · obtain ⟨item,known⟩ := ih early
      obtain ⟨next,later,-⟩ := step.rises known
      exact ⟨next,later⟩
    · cases List.mem_singleton.mp here
      cases step with
      | added fresh => exact ⟨_,Function.update_self _ _ _⟩

/-! ## Who holds what -/

/-- The latest event that names the piece of work is this one. -/
def Latest (events : List (Event κ)) (k : κ) (event : Event κ) : Prop :=
  ∃ before after, events = before ++ event :: after ∧ ∀ e ∈ after, e.about ≠ some k

/-- Work that is held was claimed last of all, under this generation. -/
theorem Run.holder {events : List (Event κ)} {ledger : Ledger κ} (run : Run events ledger) {k : κ} {g : Nat}
    (held : ledger k = some ⟨.Held,g⟩) (holders : ∀ j h, .Settled j h .Held ∉ events) : Latest events k (.Claimed k g) := by
  induction run with
  | start => cases held
  | @next events before later event run step ih =>
    have early : ∀ j h, .Settled j h .Held ∉ events := fun j h member => holders j h (List.mem_append_left _ member)
    by_cases named : event.about = some k
    · cases step with
      | added fresh => cases named; rw [Function.update_self] at held; cases held
      | claimed known free =>
        cases named
        rw [Function.update_self] at held
        cases held
        exact ⟨events,[],rfl,by simp⟩
      | settled here phase =>
        cases named
        rw [Function.update_self] at held
        cases held
        exact absurd (by simp) (holders k g)
      | withdrawn known free next unheld =>
        cases named
        rw [Function.update_self] at held
        cases held
        exact absurd rfl unheld
      | revived retired => cases named; rw [Function.update_self] at held; cases held
      | purged => cases named
    · have before : before k = some ⟨.Held,g⟩ := by
        rcases step.elsewhere named with same | ⟨-,same⟩
        · rw [← same,held]
        · rw [held] at same
          obtain ⟨item,known,purged⟩ := Option.map_eq_some_iff.mp same.symm
          unfold purge at purged
          split at purged
          · cases purged
          · rw [known,purged]
      obtain ⟨first,second,split,quiet⟩ := ih before early
      refine ⟨first,second ++ [event],by rw [split]; simp,?_⟩
      intro e member
      rcases List.mem_append.mp member with inside | here
      · exact quiet e inside
      · rw [List.mem_singleton.mp here]
        exact named

/-- A settlement was made by the latest claim. -/
theorem Run.settled_by_holder {before after : List (Event κ)} {ledger : Ledger κ} {k : κ} {g : Nat} {phase : Phase}
    (run : Run (before ++ .Settled k g phase :: after) ledger) (holders : ∀ j h, .Settled j h .Held ∉ before) :
    Latest before k (.Claimed k g) := by
  rw [List.append_cons] at run
  obtain ⟨reached,here⟩ := run.front
  obtain ⟨ledger,earlier,step⟩ := here.snoc
  cases step with
  | settled held phase => exact earlier.holder held holders

/-! ## What is closed -/

def Phase.Closed (phase : Phase) : Prop := phase = .Retired ∨ phase = .Gone

theorem purge_closed {item : Item} (closed : item.phase.Closed) : (purge item).phase.Closed := by
  unfold purge
  split
  · exact .inr rfl
  · exact closed

/-- Only a revival opens what is closed. -/
theorem Step.stays_closed {ledger later : Ledger κ} {event : Event κ} {k : κ} {item : Item} (step : Step ledger event later)
    (known : ledger k = some item) (closed : item.phase.Closed) (revives : event ≠ .Revived k) :
    (∃ next, later k = some next ∧ next.phase.Closed) ∧ ∀ g, event ≠ .Claimed k g := by
  by_cases named : event.about = some k
  · cases step with
    | added fresh => cases named; rw [known] at fresh; cases fresh
    | claimed here free =>
      cases named
      rw [known] at here
      cases here
      rcases closed with rfl | rfl <;> rcases free with free | free <;> cases free
    | settled held phase =>
      cases named
      rw [known] at held
      cases held
      rcases closed with closed | closed <;> cases closed
    | withdrawn here free next unheld =>
      cases named
      rw [known] at here
      cases here
      rcases closed with rfl | rfl <;> rcases free with free | free <;> cases free
    | revived retired => cases named; exact absurd rfl revives
    | purged => cases named
  · refine ⟨?_,fun g same => named (by rw [same]; rfl)⟩
    rcases step.elsewhere named with same | ⟨-,same⟩
    · exact ⟨item,by rw [same,known],closed⟩
    · exact ⟨purge item,by rw [same,known]; rfl,purge_closed closed⟩

/-- Work that is closed is not claimed again, unless it is revived. -/
theorem Run.closed_for_good {before after : List (Event κ)} {ledger : Ledger κ} {k : κ} {g : Nat} {phase : Phase}
    (run : Run (before ++ .Settled k g phase :: after) ledger) (closed : phase.Closed) (revives : .Revived k ∉ after) :
    (∃ item, ledger k = some item ∧ item.phase.Closed) ∧ ∀ h, .Claimed k h ∉ after := by
  induction after using List.reverseRecOn generalizing ledger with
  | nil =>
    obtain ⟨earlier,-,step⟩ := run.snoc
    cases step with
    | settled held phase => exact ⟨⟨_,Function.update_self _ _ _,closed⟩,by simp⟩
  | append_singleton after event ih =>
    rw [← List.cons_append,← List.append_assoc] at run
    obtain ⟨earlier,here,step⟩ := run.snoc
    obtain ⟨⟨item,known,still⟩,quiet⟩ := ih here (fun member => revives (List.mem_append_left _ member))
    have other : event ≠ .Revived k := fun same => revives (by rw [same]; simp)
    obtain ⟨stays,unclaimed⟩ := step.stays_closed known still other
    refine ⟨stays,?_⟩
    intro h member
    rcases List.mem_append.mp member with inside | last
    · exact quiet h inside
    · exact unclaimed h (List.mem_singleton.mp last).symm

/-- The work was settled or withdrawn for good, or was retired when the retired work was purged. -/
def Removed (events : List (Event κ)) (k : κ) : Prop :=
  (∃ h, .Settled k h .Gone ∈ events) ∨ .Withdrawn k .Gone ∈ events ∨
    ∃ before after reached h, events = before ++ .Purged :: after ∧ Run before reached ∧ reached k = some ⟨.Retired,h⟩

theorem Removed.longer {events : List (Event κ)} {k : κ} (removed : Removed events k) (event : Event κ) :
    Removed (events ++ [event]) k := by
  rcases removed with ⟨h,member⟩ | member | ⟨before,after,reached,h,split,run,retired⟩
  · exact .inl ⟨h,List.mem_append_left _ member⟩
  · exact .inr (.inl (List.mem_append_left _ member))
  · exact .inr (.inr ⟨before,after ++ [event],reached,h,by rw [split]; simp,run,retired⟩)

theorem Run.gone {events : List (Event κ)} {ledger : Ledger κ} (run : Run events ledger) {k : κ} {g : Nat}
    (gone : ledger k = some ⟨.Gone,g⟩) : Removed events k := by
  induction run with
  | start => cases gone
  | @next events before later event run step ih =>
    by_cases named : event.about = some k
    · cases step with
      | added fresh => cases named; rw [Function.update_self] at gone; cases gone
      | claimed known free => cases named; rw [Function.update_self] at gone; cases gone
      | settled held phase =>
        cases named
        rw [Function.update_self] at gone
        cases gone
        exact .inl ⟨g,by simp⟩
      | withdrawn known free next unheld =>
        cases named
        rw [Function.update_self] at gone
        cases gone
        exact .inr (.inl (by simp))
      | revived retired => cases named; rw [Function.update_self] at gone; cases gone
      | purged => cases named
    · rcases step.elsewhere named with same | ⟨isPurge,same⟩
      · exact (ih (by rw [← same,gone])).longer event
      · rw [gone] at same
        obtain ⟨item,known,purged⟩ := Option.map_eq_some_iff.mp same.symm
        unfold purge at purged
        split at purged
        · rename_i retired
          refine .inr (.inr ⟨events,[],before,item.generation,by rw [isPurge],run,?_⟩)
          rw [known,← retired]
        · rw [purged] at known
          exact (ih known).longer event

/-- Work is retired because it was settled or withdrawn so. -/
theorem Run.retired {events : List (Event κ)} {ledger : Ledger κ} (run : Run events ledger) {k : κ} {g : Nat}
    (retired : ledger k = some ⟨.Retired,g⟩) : (∃ h, .Settled k h .Retired ∈ events) ∨ .Withdrawn k .Retired ∈ events := by
  induction run with
  | start => cases retired
  | @next events before later event run step ih =>
    have longer : before k = some ⟨.Retired,g⟩ →
        (∃ h, .Settled k h .Retired ∈ events ++ [event]) ∨ .Withdrawn k .Retired ∈ events ++ [event] := by
      intro known
      rcases ih known with ⟨h,member⟩ | member
      · exact .inl ⟨h,List.mem_append_left _ member⟩
      · exact .inr (List.mem_append_left _ member)
    by_cases named : event.about = some k
    · cases step with
      | added fresh => cases named; rw [Function.update_self] at retired; cases retired
      | claimed known free => cases named; rw [Function.update_self] at retired; cases retired
      | settled held phase =>
        cases named
        rw [Function.update_self] at retired
        cases retired
        exact .inl ⟨g,by simp⟩
      | withdrawn known free next unheld =>
        cases named
        rw [Function.update_self] at retired
        cases retired
        exact .inr (by simp)
      | revived was => cases named; rw [Function.update_self] at retired; cases retired
      | purged => cases named
    · rcases step.elsewhere named with same | ⟨-,same⟩
      · exact longer (by rw [← same,retired])
      · rw [retired] at same
        obtain ⟨item,known,purged⟩ := Option.map_eq_some_iff.mp same.symm
        unfold purge at purged
        split at purged
        · cases purged
        · rw [purged] at known
          exact longer known

end Leases
