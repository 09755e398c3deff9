import VoodooStore.Lib.Effects

/-!
# Readers over byte strings

A reader goes through a byte string from a position that never passes a given
bound. It parses a spelling when it reads it wherever it stands; a chain of
readers parses the spellings of its parts one after another.
-/
namespace Reading
open Effects
variable {ε α β : Type}

structure Position where
  bytes : List UInt8
  pos : Nat

/-- Between what was read and what is left. -/
def Position.at (read left : List UInt8) : Position := ⟨read ++ left,read.length⟩

def Position.finished (self : Position) : Bool := self.pos = self.bytes.length

/-- The next bytes, as many as given. -/
def take (bound : Nat) (corrupt : ε) (len : Nat) : EStateM ε Position (List UInt8) := do
  let self ← get
  if self.pos + len < bound then
    if self.pos + len ≤ self.bytes.length then
      set { self with pos := self.pos + len }
      return (self.bytes.drop self.pos).take len
    else throw corrupt
  else throw corrupt

/-- The reader reads this spelling, and reads it as this value. -/
def Parses (bound : Nat) (x : EStateM ε Position α) (bytes : List UInt8) (a : α) : Prop :=
  ∀ read left, read.length + bytes.length < bound → x (.at read (bytes ++ left)) = .ok a (.at (read ++ bytes) left)

variable {bound : Nat}

theorem parses_pure (a : α) : Parses bound (pure a : EStateM ε Position α) [] a := by
  intro read left _
  rw [List.nil_append,List.append_nil]
  rfl

theorem Parses.bind {x : EStateM ε Position α} {f : α → EStateM ε Position β} {first second : List UInt8} {a : α} {b : β}
    (one : Parses bound x first a) (other : Parses bound (f a) second b) : Parses bound (x >>= f) (first ++ second) b := by
  intro read left small
  rw [List.length_append] at small
  rw [List.append_assoc,bind_of_ok (one read (second ++ left) (by omega)),other (read ++ first) left (by simp; omega),
    List.append_assoc]

/-- The last reader of a chain. -/
theorem Parses.ends {x : EStateM ε Position α} {f : α → EStateM ε Position β} {bytes : List UInt8} {a : α} {b : β}
    (one : Parses bound x bytes a) (other : Parses bound (f a) [] b) : Parses bound (x >>= f) bytes b := by
  have whole := one.bind other
  rwa [List.append_nil] at whole

theorem parses_take (corrupt : ε) (bytes : List UInt8) : Parses bound (take bound corrupt bytes.length) bytes bytes := by
  intro read left small
  unfold take Position.at
  rw [get_bind]
  dsimp only
  rw [if_pos small,if_pos (by simp),set_bind,pure_run,List.drop_left,List.take_left,List.length_append,List.append_assoc]

theorem parses_lift {x : Except ε α} {a : α} (done : x = .ok a) : Parses bound (lift x) [] a := by
  intro read left _
  rw [done,List.nil_append,List.append_nil]
  rfl

/-- A whole byte string, read from its start to its end. -/
def readAll (corrupt : ε) (x : EStateM ε Position α) (bytes : List UInt8) : Except ε α :=
  match x ⟨bytes,0⟩ with
  | .error e _ => .error e
  | .ok a position => if position.finished then .ok a else .error corrupt

theorem Parses.readAll {x : EStateM ε Position α} {bytes : List UInt8} {a : α} (corrupt : ε) (parses : Parses bound x bytes a)
    (small : bytes.length < bound) : readAll corrupt x bytes = .ok a := by
  have read := parses [] [] (by rw [List.length_nil]; omega)
  rw [List.append_nil,List.nil_append] at read
  unfold Reading.readAll
  have start : (Position.at [] bytes) = ⟨bytes,0⟩ := rfl
  rw [← start,read]
  simp [Position.finished,Position.at]

end Reading
