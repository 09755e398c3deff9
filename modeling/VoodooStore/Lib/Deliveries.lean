import Mathlib

/-!
# Deliveries one at a time

A group reads numbered entries in order. Whoever is handed the next entry holds
a ticket for it; the group moves on when the holder acknowledges. Nobody else's
acknowledgement counts, and nothing is passed over.
-/
namespace Deliveries
variable {κ : Type}

/-- Who was handed which entry, and how many were handed out by then. -/
structure Ticket (κ : Type) where
  consumer : κ
  offset : Nat
  generation : Nat
  deriving DecidableEq

inductive Event (κ : Type)
  | Delivered (ticket : Ticket κ)
  | Acked (ticket : Ticket κ)
  | Nacked (ticket : Ticket κ)
  deriving DecidableEq

/-- The entry that is next, who holds it, and how many tickets there were. -/
structure Group (κ : Type) where
  next : Nat
  holder : Option κ
  generation : Nat

/-- The ticket of whoever holds the next entry. -/
def Group.ticket (group : Group κ) (consumer : κ) : Ticket κ := ⟨consumer,group.next,group.generation⟩

/-- A history and the group that it leads to. A ticket may be withdrawn without notice. -/
inductive Run : List (Event κ) → Group κ → Prop
  | start : Run [] ⟨0,none,0⟩
  | delivered {events : List (Event κ)} {group : Group κ} (run : Run events group) (consumer : κ) :
      Run (events ++ [.Delivered ⟨consumer,group.next,group.generation + 1⟩]) ⟨group.next,some consumer,group.generation + 1⟩
  | acked {events : List (Event κ)} {group : Group κ} {consumer : κ} (run : Run events group) (held : group.holder = some consumer) :
      Run (events ++ [.Acked (group.ticket consumer)]) ⟨group.next + 1,none,group.generation⟩
  | nacked {events : List (Event κ)} {group : Group κ} {consumer : κ} (run : Run events group) (held : group.holder = some consumer) :
      Run (events ++ [.Nacked (group.ticket consumer)]) ⟨group.next,none,group.generation⟩
  | withdrawn {events : List (Event κ)} {group : Group κ} (run : Run events group) : Run events ⟨group.next,none,group.generation⟩

def tickets (events : List (Event κ)) : List (Ticket κ) :=
  events.filterMap (fun event => match event with | .Delivered ticket => some ticket | _ => none)

def acks (events : List (Event κ)) : List (Ticket κ) :=
  events.filterMap (fun event => match event with | .Acked ticket => some ticket | _ => none)

variable {events : List (Event κ)} {group : Group κ}

/-- The tickets are numbered one after another. -/
theorem Run.generations (run : Run events group) : (tickets events).map Ticket.generation = List.range' 1 group.generation := by
  induction run with
  | start => rfl
  | delivered run consumer ih =>
    rw [tickets,List.filterMap_append,List.map_append]
    rw [tickets] at ih
    rw [ih,List.range'_concat]
    simp [add_comm]
  | acked run held ih => simpa [tickets] using ih
  | nacked run held ih => simpa [tickets] using ih
  | withdrawn run ih => exact ih

/-- No two tickets have the same number. -/
theorem Run.rises (run : Run events group) : (tickets events).Pairwise (fun a b => a.generation < b.generation) := by
  have sorted : ((tickets events).map Ticket.generation).Pairwise (· < ·) := by
    rw [run.generations]
    exact List.pairwise_lt_range'
  rwa [List.pairwise_map] at sorted

/-- What is acknowledged is everything before the next entry, in order. -/
theorem Run.in_order (run : Run events group) : (acks events).map Ticket.offset = List.range group.next := by
  induction run with
  | start => rfl
  | delivered run consumer ih => simpa [acks] using ih
  | acked run held ih =>
    rw [acks,List.filterMap_append,List.map_append]
    rw [acks] at ih
    rw [ih,List.range_succ]
    simp [Group.ticket]
  | nacked run held ih => simpa [acks] using ih
  | withdrawn run ih => exact ih

/-- The holder was handed the next entry last. -/
theorem Run.holder (run : Run events group) {consumer : κ} (held : group.holder = some consumer) :
    events.getLast? = some (.Delivered (group.ticket consumer)) := by
  cases run with
  | start => cases held
  | delivered run other =>
    cases held
    simp [Group.ticket]
  | acked run _ => cases held
  | nacked run _ => cases held
  | withdrawn run => cases held

/-- The event that can happen to a group. -/
def Group.Admits (group : Group κ) : Event κ → Prop
  | .Delivered ticket => ticket.offset = group.next ∧ ticket.generation = group.generation + 1
  | .Acked ticket => group.holder = some ticket.consumer ∧ ticket = group.ticket ticket.consumer
  | .Nacked ticket => group.holder = some ticket.consumer ∧ ticket = group.ticket ticket.consumer

/-- The history up to any of its events is one too, and leads to a group that admits it. -/
theorem Run.split {before after : List (Event κ)} {event : Event κ} (run : Run (before ++ event :: after) group) :
    ∃ earlier : Group κ, Run before earlier ∧ earlier.Admits event := by
  generalize whole : before ++ event :: after = events at run
  induction run generalizing after with
  | start => simp at whole
  | withdrawn run ih => exact ih whole
  | delivered run consumer ih =>
    rcases List.eq_nil_or_concat after with rfl | ⟨rest,last,rfl⟩
    · obtain ⟨rfl,ends⟩ := List.append_inj' whole rfl
      cases ends
      exact ⟨_,run,rfl,rfl⟩
    · rw [List.concat_eq_append,← List.cons_append,← List.append_assoc] at whole
      exact ih (List.append_inj' whole rfl).1
  | acked run held ih =>
    rcases List.eq_nil_or_concat after with rfl | ⟨rest,last,rfl⟩
    · obtain ⟨rfl,ends⟩ := List.append_inj' whole rfl
      cases ends
      exact ⟨_,run,held,rfl⟩
    · rw [List.concat_eq_append,← List.cons_append,← List.append_assoc] at whole
      exact ih (List.append_inj' whole rfl).1
  | nacked run held ih =>
    rcases List.eq_nil_or_concat after with rfl | ⟨rest,last,rfl⟩
    · obtain ⟨rfl,ends⟩ := List.append_inj' whole rfl
      cases ends
      exact ⟨_,run,held,rfl⟩
    · rw [List.concat_eq_append,← List.cons_append,← List.append_assoc] at whole
      exact ih (List.append_inj' whole rfl).1

/-- Whoever acknowledges has just been handed the entry, whatever others were handed before. -/
theorem Run.acked_by_holder {before after : List (Event κ)} {ticket : Ticket κ} (run : Run (before ++ .Acked ticket :: after) group) :
    before.getLast? = some (.Delivered ticket) := by
  obtain ⟨earlier,reached,held,same⟩ := run.split
  rw [reached.holder held,← same]

theorem Run.nacked_by_holder {before after : List (Event κ)} {ticket : Ticket κ} (run : Run (before ++ .Nacked ticket :: after) group) :
    before.getLast? = some (.Delivered ticket) := by
  obtain ⟨earlier,reached,held,same⟩ := run.split
  rw [reached.holder held,← same]

/-- What is handed out is the first entry that is not acknowledged. -/
theorem Run.delivered_next {before after : List (Event κ)} {ticket : Ticket κ} (run : Run (before ++ .Delivered ticket :: after) group) :
    ticket.offset = (acks before).length := by
  obtain ⟨earlier,reached,here,-⟩ := run.split
  have counted := congrArg List.length reached.in_order
  rw [List.length_map,List.length_range] at counted
  rw [here,counted]

end Deliveries
