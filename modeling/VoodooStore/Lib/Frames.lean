import Mathlib

/-!
# Streams of self-delimiting frames

A stream is read from the front, one frame at a time, until what is left is
torn: the beginning of a frame whose end is missing, or nothing. A framing
knows the frames it can write and what stands at the front of a stream; its
laws say that a written frame is read back whatever follows it, that only
written frames are read, and that what is cut short is torn rather than bad.

The values a stream holds and the torn rest they leave (`values`, `rest`) are
functions of the stream alone. Reading a stream with a step that may refuse a
value (`scan`) is folding the step over these values (`scan_eq`), and a stream
cut anywhere holds the values whose frames survived whole (`values_cut`).
-/
namespace Frames

/-- What stands at the front of a stream. -/
inductive Head (α ε : Type)
  | torn
  | bad (error : ε)
  | frame (value : α)

/-- A way to write values as frames and to recognise them at the front of a stream. -/
structure Framing (β α ε : Type) where
  Valid : α → Prop
  encode : α → List β
  head : List β → Head α ε
  encode_ne_nil : ∀ {a}, Valid a → encode a ≠ []
  head_encode : ∀ {a} (follows : List β), Valid a → head (encode a ++ follows) = .frame a
  of_head : ∀ {stream a}, head stream = .frame a → Valid a ∧ encode a <+: stream
  head_cut : ∀ {a piece}, Valid a → piece <+: encode a → piece ≠ encode a → head piece = .torn
  head_torn : ∀ {stream piece}, head stream = .torn → piece <+: stream → head piece = .torn

namespace Framing
variable {β α ε σ : Type} (F : Framing β α ε)

theorem drop_lt {stream : List β} {a : α} (front : F.head stream = .frame a) :
    (stream.drop (F.encode a).length).length < stream.length := by
  obtain ⟨valid,starts⟩ := F.of_head front
  have positive := List.length_pos_of_ne_nil (F.encode_ne_nil valid)
  have fits := starts.length_le
  simp only [List.length_drop]
  omega

/-- The values at the front of a stream and what follows the last of them. -/
def split (stream : List β) : List α × List β :=
  match _front : F.head stream with
  | .frame a =>
    let later := split (stream.drop (F.encode a).length)
    (a :: later.1,later.2)
  | .torn => ([],stream)
  | .bad _ => ([],stream)
termination_by stream.length
decreasing_by exact F.drop_lt _front

/-- The values that a stream holds. -/
def values (stream : List β) : List α := (F.split stream).1

/-- What a stream holds after its last value. -/
def rest (stream : List β) : List β := (F.split stream).2

/-- The stream that holds the given values. -/
def encodeAll (as : List α) : List β := as.flatMap F.encode

/-- Read a stream to its torn end; the step or a bad front may refuse it. -/
def scan (step : σ → α → Except ε σ) (s : σ) (stream : List β) : Except ε (σ × List β) :=
  match _front : F.head stream with
  | .torn => .ok (s,stream)
  | .bad error => .error error
  | .frame a =>
    match step s a with
    | .error error => .error error
    | .ok next => scan step next (stream.drop (F.encode a).length)
termination_by stream.length
decreasing_by exact F.drop_lt _front

@[simp] theorem encodeAll_nil : F.encodeAll [] = [] := rfl
@[simp] theorem encodeAll_cons (a : α) (as : List α) : F.encodeAll (a :: as) = F.encode a ++ F.encodeAll as := rfl
@[simp] theorem encodeAll_append (as bs : List α) :
    F.encodeAll (as ++ bs) = F.encodeAll as ++ F.encodeAll bs := by
  simp [encodeAll]

theorem split_frame {a : α} (valid : F.Valid a) (follows : List β) :
    F.split (F.encode a ++ follows) = (a :: F.values follows,F.rest follows) := by
  rw [split]
  split
  · rename_i b front
    rw [F.head_encode follows valid] at front
    cases front
    simp [values,rest]
  · rename_i front; rw [F.head_encode follows valid] at front; cases front
  · rename_i error front; rw [F.head_encode follows valid] at front; cases front

theorem values_frame {a : α} (valid : F.Valid a) (follows : List β) :
    F.values (F.encode a ++ follows) = a :: F.values follows := by
  rw [values,split_frame F valid]

theorem rest_frame {a : α} (valid : F.Valid a) (follows : List β) :
    F.rest (F.encode a ++ follows) = F.rest follows := by
  rw [rest,split_frame F valid]

theorem split_other {stream : List β} (other : ∀ a, F.head stream ≠ .frame a) :
    F.split stream = ([],stream) := by
  rw [split]
  split
  · rename_i a front; exact absurd front (other a)
  · rfl
  · rfl

theorem values_encodeAll {as : List α} (valid : ∀ a ∈ as, F.Valid a) (follows : List β) :
    F.values (F.encodeAll as ++ follows) = as ++ F.values follows := by
  induction as with
  | nil => rfl
  | cons a as ih =>
    rw [encodeAll_cons,List.append_assoc,values_frame F (valid a (by simp)),List.cons_append,
      ih (fun b member => valid b (by simp [member]))]

theorem rest_encodeAll {as : List α} (valid : ∀ a ∈ as, F.Valid a) (follows : List β) :
    F.rest (F.encodeAll as ++ follows) = F.rest follows := by
  induction as with
  | nil => rfl
  | cons a as ih =>
    rw [encodeAll_cons,List.append_assoc,rest_frame F (valid a (by simp)),
      ih (fun b member => valid b (by simp [member]))]

theorem values_other {stream : List β} (other : ∀ a, F.head stream ≠ .frame a) : F.values stream = [] := by
  rw [values,split_other F other]

theorem rest_other {stream : List β} (other : ∀ a, F.head stream ≠ .frame a) : F.rest stream = stream := by
  rw [rest,split_other F other]

theorem values_torn {stream : List β} (torn : F.head stream = .torn) : F.values stream = [] :=
  F.values_other (by simp [torn])

theorem rest_torn {stream : List β} (torn : F.head stream = .torn) : F.rest stream = stream :=
  F.rest_other (by simp [torn])

/-- A stream is its values' frames and then its rest. -/
theorem encodeAll_values_rest (stream : List β) : F.encodeAll (F.values stream) ++ F.rest stream = stream := by
  induction stream using split.induct F with
  | case1 stream a front ih =>
    obtain ⟨valid,follows,rfl⟩ := F.of_head front
    rw [List.drop_left] at ih
    rw [values_frame F valid,rest_frame F valid,encodeAll_cons,List.append_assoc,ih]
  | case2 stream front => rw [values_other F (by simp [front]),rest_other F (by simp [front])]; rfl
  | case3 stream error front => rw [values_other F (by simp [front]),rest_other F (by simp [front])]; rfl

theorem values_valid (stream : List β) : ∀ a ∈ F.values stream, F.Valid a := by
  induction stream using split.induct F with
  | case1 stream a front ih =>
    obtain ⟨valid,follows,rfl⟩ := F.of_head front
    rw [List.drop_left] at ih
    rw [values_frame F valid]
    intro b member
    rcases List.mem_cons.mp member with rfl | member
    · exact valid
    · exact ih b member
  | case2 stream front => rw [values_other F (by simp [front])]; simp
  | case3 stream error front => rw [values_other F (by simp [front])]; simp

/-- No frame stands at the front of the rest. -/
theorem head_rest (stream : List β) (a : α) : F.head (F.rest stream) ≠ .frame a := by
  induction stream using split.induct F with
  | case1 stream b front ih =>
    obtain ⟨valid,follows,rfl⟩ := F.of_head front
    rw [List.drop_left] at ih
    rw [rest_frame F valid]
    exact ih
  | case2 stream front => rw [rest_other F (by simp [front]),front]; simp
  | case3 stream error front => rw [rest_other F (by simp [front]),front]; simp

/-- Reading a stream is folding the step over its values, then looking at its rest. -/
theorem scan_eq (step : σ → α → Except ε σ) (s : σ) (stream : List β) :
    F.scan step s stream = (do
      let last ← (F.values stream).foldlM step s
      match F.head (F.rest stream) with
      | .bad error => .error error
      | _ => .ok (last,F.rest stream)) := by
  induction s, stream using scan.induct F step with
  | case1 s stream front =>
    have other : ∀ a, F.head stream ≠ .frame a := by simp [front]
    rw [scan,values_other F other,rest_other F other]
    split <;> simp_all [pure,Except.pure,bind,Except.bind]
  | case2 s stream error front =>
    have other : ∀ a, F.head stream ≠ .frame a := by simp [front]
    rw [scan,values_other F other,rest_other F other]
    split <;> simp_all [pure,Except.pure,bind,Except.bind]
  | case3 s stream a front error refused =>
    obtain ⟨valid,follows,rfl⟩ := F.of_head front
    rw [scan,values_frame F valid]
    split <;> simp_all [bind,Except.bind]
  | case4 s stream a front next accepted ih =>
    obtain ⟨valid,follows,rfl⟩ := F.of_head front
    rw [List.drop_left] at ih
    rw [scan,values_frame F valid,rest_frame F valid]
    split
    · simp_all
    · simp_all
    · rename_i b front'
      rw [front] at front'
      cases front'
      simp only [accepted,List.drop_left,ih,List.foldlM_cons,bind,Except.bind]

/-- What a successful reading says about the stream. -/
theorem scan_ok_iff (step : σ → α → Except ε σ) (s last : σ) (stream left : List β) :
    F.scan step s stream = .ok (last,left) ↔
      (F.values stream).foldlM step s = .ok last ∧ F.rest stream = left ∧ F.head left = .torn := by
  rw [scan_eq]
  cases folded : (F.values stream).foldlM step s with
  | error error => simp [bind,Except.bind]
  | ok reached =>
    have noFrame := F.head_rest stream
    simp only [bind,Except.bind]
    cases front : F.head (F.rest stream) with
    | torn =>
      simp only [Except.ok.injEq,Prod.mk.injEq]
      constructor
      · rintro ⟨rfl,rfl⟩; exact ⟨rfl,rfl,front⟩
      · rintro ⟨rfl,rfl,_⟩; exact ⟨rfl,rfl⟩
    | bad error =>
      simp only [reduceCtorEq,false_iff]
      rintro ⟨-,rfl,torn⟩
      rw [front] at torn
      cases torn
    | frame a => exact absurd front (noFrame a)

/-- Values written in front of a torn piece, and nothing else, are read back. -/
theorem values_written {as : List α} (valid : ∀ a ∈ as, F.Valid a) {piece : List β}
    (torn : F.head piece = .torn) : F.values (F.encodeAll as ++ piece) = as := by
  rw [F.values_encodeAll valid,F.values_torn torn,List.append_nil]

theorem rest_written {as : List α} (valid : ∀ a ∈ as, F.Valid a) {piece : List β}
    (torn : F.head piece = .torn) : F.rest (F.encodeAll as ++ piece) = piece := by
  rw [F.rest_encodeAll valid,F.rest_torn torn]

/-- A stream with a torn rest, cut anywhere, has a torn rest. -/
theorem cut_torn {stream piece : List β} (torn : F.head (F.rest stream) = .torn) (cut : piece <+: stream) :
    F.head (F.rest piece) = .torn := by
  -- The first frame either survives the cut whole or becomes the torn rest.
  induction stream using split.induct F generalizing piece with
  | case1 stream a front ih =>
    obtain ⟨valid,follows,rfl⟩ := F.of_head front
    rw [List.drop_left] at ih
    rw [rest_frame F valid] at torn
    by_cases whole : (F.encode a).length ≤ piece.length
    · obtain ⟨kept,rfl⟩ := List.prefix_of_prefix_length_le (List.prefix_append _ follows) cut whole
      rw [rest_frame F valid]
      exact ih torn ((List.prefix_append_right_inj _).mp cut)
    · have short := List.prefix_of_prefix_length_le cut (List.prefix_append _ follows) (by omega)
      have cutTorn := F.head_cut valid short (by rintro rfl; exact whole le_rfl)
      rw [rest_torn F cutTorn]
      exact cutTorn
  | case2 stream front =>
    have cutTorn := F.head_torn front cut
    rw [rest_torn F cutTorn]
    exact cutTorn
  | case3 stream error front =>
    rw [rest_other F (by simp [front]),front] at torn
    cases torn

/-- A run of a stream's first frames that the cut leaves whole is still read. -/
theorem values_cut {stream piece : List β} {as : List α} (cut : piece <+: stream)
    (first : as <+: F.values stream) (whole : (F.encodeAll as).length ≤ piece.length) :
    as <+: F.values piece := by
  have frames : F.encodeAll as <+: stream := by
    obtain ⟨later,split⟩ := first
    rw [← F.encodeAll_values_rest stream,← split,encodeAll_append,List.append_assoc]
    exact List.prefix_append _ _
  obtain ⟨kept,rfl⟩ := List.prefix_of_prefix_length_le frames cut whole
  have valid : ∀ a ∈ as, F.Valid a := fun a member => F.values_valid stream a (first.subset member)
  rw [F.values_encodeAll valid]
  exact List.prefix_append _ _

/-- Cutting a stream never makes it hold other values. -/
theorem values_cut_front {stream piece : List β} (cut : piece <+: stream) :
    F.values piece <+: F.values stream := by
  have frames : F.encodeAll (F.values piece) <+: stream := by
    refine List.IsPrefix.trans ?_ cut
    conv => rhs; rw [← F.encodeAll_values_rest piece]
    exact List.prefix_append _ _
  obtain ⟨later,rfl⟩ := frames
  rw [F.values_encodeAll (F.values_valid piece)]
  exact List.prefix_append _ _

end Framing

/-- A fold that succeeds succeeds on every first part of its list. -/
theorem foldlM_front {α ε σ : Type} {step : σ → α → Except ε σ} {s last : σ} {front all : List α}
    (done : all.foldlM step s = .ok last) (part : front <+: all) :
    ∃ reached, front.foldlM step s = .ok reached := by
  obtain ⟨later,rfl⟩ := part
  rw [List.foldlM_append] at done
  cases reached : front.foldlM step s with
  | ok value => exact ⟨value,rfl⟩
  | error error => rw [reached] at done; cases done

end Frames
