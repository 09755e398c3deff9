import VoodooStore.Lib.Reading
import VoodooStore.Lib.Faults

/-!
# Cursors and readers

A program that moves a cursor over a byte string follows a reader when both end
in the same way: with the same value behind the same bytes, or with the same
error. A reader that needs some bytes fails on a shorter string, and if it has
only one error, it fails with that.
-/
namespace Reading
open Effects Faults
variable {ε α β : Type}

/-! ## Readers that need some bytes -/

/-- The reader moves on by this many bytes at least, and has only one error. -/
structure Needs (corrupt : ε) (least : Nat) (y : EStateM ε Position α) : Prop where
  ok : ∀ s a t, y s = .ok a t → s.pos + least ≤ t.pos ∧ t.bytes = s.bytes ∧ (s.pos ≤ s.bytes.length → t.pos ≤ t.bytes.length)
  error : ∀ s e t, y s = .error e t → e = corrupt

theorem needs_pure (corrupt : ε) (a : α) : Needs corrupt 0 (pure a : EStateM ε Position α) := by
  constructor
  · intro s b t done
    cases done
    exact ⟨Nat.le_refl _,rfl,id⟩
  · intro s e t done
    cases done

theorem needs_throw (corrupt : ε) (least : Nat) : Needs corrupt least (throw corrupt : EStateM ε Position α) := by
  constructor
  · intro s b t done
    cases done
  · intro s e t done
    cases done
    rfl

theorem needs_lift {corrupt : ε} {x : Except ε α} (only : ∀ e, x = .error e → e = corrupt) : Needs corrupt 0 (lift x) := by
  constructor
  · intro s a t done
    obtain ⟨-,rfl⟩ := lift_eq_ok.mp done
    exact ⟨Nat.le_refl _,rfl,id⟩
  · intro s e t done
    exact only e (lift_eq_error.mp done).1

theorem needs_take (bound : Nat) (corrupt : ε) (len : Nat) : Needs corrupt len (take bound corrupt len) := by
  constructor
  · intro s a t done
    unfold take at done
    rw [get_bind] at done
    split at done
    · split at done
      · rename_i inside
        rw [set_bind] at done
        cases done
        exact ⟨Nat.le_refl _,rfl,fun _ => inside⟩
      · cases done
    · cases done
  · intro s e t done
    unfold take at done
    rw [get_bind] at done
    split at done
    · split at done
      · rw [set_bind] at done
        cases done
      · cases done
        rfl
    · cases done
      rfl

theorem Needs.mono {corrupt : ε} {least fewer : Nat} {y : EStateM ε Position α} (needs : Needs corrupt least y) (le : fewer ≤ least) :
    Needs corrupt fewer y := by
  refine ⟨?_,needs.error⟩
  intro s a t done
  obtain ⟨moved,same⟩ := needs.ok s a t done
  exact ⟨by omega,same⟩

theorem Needs.bind {corrupt : ε} {first second : Nat} {y : EStateM ε Position α} {g : α → EStateM ε Position β}
    (one : Needs corrupt first y) (other : ∀ a, Needs corrupt second (g a)) : Needs corrupt (first + second) (y >>= g) := by
  constructor
  · intro s b u done
    obtain ⟨a,t,early,late⟩ := bind_ok.mp done
    obtain ⟨moved,same,inside⟩ := one.ok s a t early
    obtain ⟨further,still,within⟩ := (other a).ok t b u late
    exact ⟨by omega,still.trans same,fun start => within (inside start)⟩
  · intro s e u done
    rcases bind_error.mp done with early | ⟨a,t,-,late⟩
    · exact one.error s e u early
    · exact (other a).error t e u late

theorem Needs.ite {corrupt : ε} {least : Nat} {c : Prop} [Decidable c] {y z : EStateM ε Position α} (first : Needs corrupt least y)
    (second : Needs corrupt least z) : Needs corrupt least (if c then y else z) := by
  by_cases here : c
  · rw [if_pos here]
    exact first
  · rw [if_neg here]
    exact second

/-- What is made of a reader that should have come to the end. -/
def finish (corrupt : ε) : EStateM.Result ε Position α → Except ε α
  | .ok a position => if position.finished then .ok a else .error corrupt
  | .error e _ => .error e

theorem readAll_is (corrupt : ε) (y : EStateM ε Position α) (bytes : List UInt8) : readAll corrupt y bytes = finish corrupt (y ⟨bytes,0⟩) := by
  unfold readAll finish
  cases y ⟨bytes,0⟩ <;> rfl

theorem Needs.short {corrupt : ε} {least : Nat} {y : EStateM ε Position α} (needs : Needs corrupt least y) {bytes : List UInt8}
    {cursor : Nat} (short : bytes.length < cursor + least) : finish corrupt (y ⟨bytes,cursor⟩) = .error corrupt := by
  cases result : y ⟨bytes,cursor⟩ with
  | error e t =>
    rw [needs.error _ e t result]
    rfl
  | ok a t =>
    obtain ⟨moved,same,-⟩ := needs.ok _ a t result
    refine if_neg ?_
    dsimp only at moved same
    rw [Position.finished,same,decide_eq_true_eq]
    omega

/-! ## What follows a reader -/

/-- The computation ends as the reader does from the cursor, with the cursor that it comes to. -/
def Follows (bytes : List UInt8) (x : Careful ε (α × Nat)) (y : EStateM ε Position α) (cursor : Nat) : Prop :=
  match y ⟨bytes,cursor⟩ with
  | .ok a position => x = .ok (a,position.pos) ∧ position.bytes = bytes ∧ position.pos ≤ bytes.length
  | .error e _ => x = refuse e

/-- The same to the end of the bytes. -/
def Ends (corrupt : ε) (bytes : List UInt8) (x : Careful ε α) (y : EStateM ε Position α) (cursor : Nat) : Prop :=
  Returns x (finish corrupt (y ⟨bytes,cursor⟩))

variable {bytes : List UInt8} {cursor : Nat}

theorem Follows.bind {x : Careful ε (α × Nat)} {y : EStateM ε Position α} {f : α × Nat → Careful ε (β × Nat)}
    {g : α → EStateM ε Position β} (first : Follows bytes x y cursor)
    (rest : ∀ a stop, stop ≤ bytes.length → Follows bytes (f (a,stop)) (g a) stop) : Follows bytes (x >>= f) (y >>= g) cursor := by
  unfold Follows at first ⊢
  rw [bind_run]
  cases result : y ⟨bytes,cursor⟩ with
  | error e t =>
    rw [result] at first
    dsimp only at first ⊢
    rw [first]
    rfl
  | ok a t =>
    rw [result] at first
    obtain ⟨rfl,same,inside⟩ := first
    have is : t = ⟨bytes,t.pos⟩ := by rw [← same]
    dsimp only
    have later := rest a t.pos inside
    unfold Follows at later
    rw [← is] at later
    exact later

theorem Follows.ends {corrupt : ε} {x : Careful ε (α × Nat)} {y : EStateM ε Position α} {f : α × Nat → Careful ε β}
    {g : α → EStateM ε Position β} (first : Follows bytes x y cursor)
    (rest : ∀ a stop, stop ≤ bytes.length → Ends corrupt bytes (f (a,stop)) (g a) stop) :
    Ends corrupt bytes (x >>= f) (y >>= g) cursor := by
  unfold Follows at first
  unfold Ends
  rw [bind_run]
  cases result : y ⟨bytes,cursor⟩ with
  | error e t =>
    rw [result] at first
    dsimp only at first ⊢
    rw [first]
    rfl
  | ok a t =>
    rw [result] at first
    obtain ⟨rfl,same,inside⟩ := first
    have is : t = ⟨bytes,t.pos⟩ := by rw [← same]
    dsimp only
    rw [is]
    exact rest a t.pos inside

theorem follows_pure (a : α) (inside : cursor ≤ bytes.length) :
    Follows bytes (.ok (a,cursor) : Careful ε (α × Nat)) (pure a) cursor := ⟨rfl,rfl,inside⟩

theorem follows_throw (e : ε) : Follows bytes (refuse e : Careful ε (α × Nat)) (throw e) cursor := rfl

theorem Follows.ite {c : Prop} [Decidable c] {x x' : Careful ε (α × Nat)} {y y' : EStateM ε Position α}
    (first : c → Follows bytes x y cursor) (second : ¬ c → Follows bytes x' y' cursor) :
    Follows bytes (if c then x else x') (if c then y else y') cursor := by
  by_cases here : c
  · rw [if_pos here,if_pos here]
    exact first here
  · rw [if_neg here,if_neg here]
    exact second here

theorem Ends.ite {corrupt : ε} {c : Prop} [Decidable c] {x x' : Careful ε α} {y y' : EStateM ε Position α}
    (first : c → Ends corrupt bytes x y cursor) (second : ¬ c → Ends corrupt bytes x' y' cursor) :
    Ends corrupt bytes (if c then x else x') (if c then y else y') cursor := by
  by_cases here : c
  · rw [if_pos here,if_pos here]
    exact first here
  · rw [if_neg here,if_neg here]
    exact second here

theorem ends_throw (corrupt : ε) : Ends corrupt bytes (refuse corrupt : Careful ε α) (throw corrupt) cursor := rfl

/-- The program looks whether it came to the end, and so does the reader. -/
theorem ends_pure {corrupt : ε} (a : α) :
    Ends corrupt bytes (if cursor ≠ bytes.length then refuse corrupt else .ok a) (pure a) cursor := by
  unfold Ends finish
  rw [pure_run]
  by_cases whole : cursor = bytes.length
  · have finished : Position.finished ⟨bytes,cursor⟩ = true := decide_eq_true whole
    rw [if_neg (not_not.mpr whole)]
    dsimp only
    rw [if_pos finished]
    rfl
  · rw [if_pos whole]
    dsimp only
    rw [if_neg (by simpa [Position.finished] using whole)]
    rfl

theorem Ends.short {corrupt : ε} {least : Nat} {y : EStateM ε Position α} (needs : Needs corrupt least y)
    (short : bytes.length < cursor + least) : Ends corrupt bytes (refuse corrupt : Careful ε α) y cursor := by
  unfold Ends
  rw [needs.short short]
  exact returns_refuse _

theorem Follows.short {corrupt : ε} {least : Nat} {y : EStateM ε Position α} (needs : Needs corrupt least y) (inside : cursor ≤ bytes.length)
    (short : bytes.length < cursor + least) : Follows bytes (refuse corrupt : Careful ε (α × Nat)) y cursor := by
  unfold Follows
  cases result : y ⟨bytes,cursor⟩ with
  | error e t =>
    rw [needs.error _ e t result]
  | ok a t =>
    obtain ⟨moved,same,within⟩ := needs.ok _ a t result
    have stop := within inside
    rw [same] at stop
    dsimp only at moved stop
    omega

theorem Ends.readAll {corrupt : ε} {x : Careful ε α} {y : EStateM ε Position α} (ends : Ends corrupt bytes x y 0) :
    Returns x (readAll corrupt y bytes) := by
  rw [readAll_is]
  exact ends

/-! ## Bytes at the cursor -/

theorem take_inside {bound : Nat} (corrupt : ε) {len : Nat} (small : cursor + len < bound) (inside : cursor + len ≤ bytes.length) :
    take bound corrupt len ⟨bytes,cursor⟩ = .ok ((bytes.drop cursor).take len) ⟨bytes,cursor + len⟩ := by
  unfold take
  rw [get_bind,if_pos small,if_pos inside]
  rfl

theorem take_past {bound : Nat} (corrupt : ε) {len : Nat} (past : bytes.length < cursor + len) :
    take bound corrupt len ⟨bytes,cursor⟩ = .error corrupt ⟨bytes,cursor⟩ := by
  unfold take
  rw [get_bind]
  by_cases small : cursor + len < bound
  · rw [if_pos small,if_neg (show ¬ cursor + len ≤ bytes.length by omega)]
    rfl
  · rw [if_neg small]
    rfl

/-- A program that takes the bytes at the cursor where there are enough of them. -/
theorem follows_take {bound : Nat} {corrupt : ε} {len : Nat} {x : Careful ε (List UInt8 × Nat)} (small : bytes.length < bound)
    (enough : cursor + len ≤ bytes.length → x = .ok ((bytes.drop cursor).take len,cursor + len))
    (short : bytes.length < cursor + len → x = refuse corrupt) : Follows bytes x (take bound corrupt len) cursor := by
  unfold Follows
  by_cases inside : cursor + len ≤ bytes.length
  · rw [take_inside corrupt (by omega) inside]
    exact ⟨enough inside,rfl,inside⟩
  · rw [take_past corrupt (by omega)]
    exact short (by omega)

theorem ends_take {bound : Nat} {corrupt error : ε} {len : Nat} {x : Careful ε α} {g : List UInt8 → EStateM ε Position α}
    (small : bytes.length < bound) (inside : cursor + len ≤ bytes.length)
    (rest : Ends corrupt bytes x (g ((bytes.drop cursor).take len)) (cursor + len)) :
    Ends corrupt bytes x (take bound error len >>= g) cursor := by
  unfold Ends at rest ⊢
  rw [bind_of_ok (take_inside error (by omega) inside)]
  exact rest

theorem follows_taken {bound : Nat} {error : ε} {len : Nat} {x : Careful ε (α × Nat)} {g : List UInt8 → EStateM ε Position α}
    (small : bytes.length < bound) (inside : cursor + len ≤ bytes.length)
    (rest : Follows bytes x (g ((bytes.drop cursor).take len)) (cursor + len)) :
    Follows bytes x (take bound error len >>= g) cursor := by
  unfold Follows at rest ⊢
  rw [bind_of_ok (take_inside error (by omega) inside)]
  exact rest

end Reading
