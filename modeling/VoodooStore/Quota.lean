import VoodooStore.Transaction

/-!
# The quota on namespaces

The keys of the engine fall into namespaces by the first segment after the
reserved prefix; all other keys share one. A commit may be refused when a
namespace it touches would hold too many bytes.
-/
namespace VoodooStore
set_option linter.unusedSimpArgs false

/-- The byte at the front, or zero past the end. -/
def safe_get (bytes : Bytes) (i : Nat) : UInt8 := bytes.getD i 0

def is_continuation (byte : UInt8) : Bool := byte &&& 192 = 128

/-- May `second` follow `first` in a character of three or four bytes? -/
def may_follow (first second : UInt8) : Bool :=
  (first = 0xe0 ∧ 0xa0 ≤ second ∧ second ≤ 0xbf) ∨ (0xe1 ≤ first ∧ first ≤ 0xec ∧ 0x80 ≤ second ∧ second ≤ 0xbf) ∨
  (first = 0xed ∧ 0x80 ≤ second ∧ second ≤ 0x9f) ∨ (0xee ≤ first ∧ first ≤ 0xef ∧ 0x80 ≤ second ∧ second ≤ 0xbf) ∨
  (first = 0xf0 ∧ 0x90 ≤ second ∧ second ≤ 0xbf) ∨ (0xf1 ≤ first ∧ first ≤ 0xf3 ∧ 0x80 ≤ second ∧ second ≤ 0xbf) ∨
  (first = 0xf4 ∧ 0x80 ≤ second ∧ second ≤ 0x8f)

/-- The payload bits of a continuation byte. -/
def low_bits (byte : UInt8) : Nat := (byte &&& 63).toNat

/-- The character at the front, and how many bytes it takes. What is not a
    character becomes one replacement for its longest promising part. -/
def utf8_front (first : UInt8) (bytes : Bytes) : Char × Nat :=
  let second := safe_get bytes 0
  let third := safe_get bytes 1
  let fourth := safe_get bytes 2
  let replacement := Char.ofNat 0xfffd
  if first < 0x80 then (Char.ofNat first.toNat,1)
  else if 0xc2 ≤ first ∧ first ≤ 0xdf then
    if is_continuation second then (Char.ofNat ((first &&& 31).toNat * 64 + low_bits second),2) else (replacement,1)
  else if 0xe0 ≤ first ∧ first ≤ 0xef then
    if may_follow first second = false then (replacement,1)
    else if is_continuation third = false then (replacement,2)
    else (Char.ofNat (((first &&& 15).toNat * 64 + low_bits second) * 64 + low_bits third),3)
  else if 0xf0 ≤ first ∧ first ≤ 0xf4 then
    if may_follow first second = false then (replacement,1)
    else if is_continuation third = false then (replacement,2)
    else if is_continuation fourth = false then (replacement,3)
    else (Char.ofNat ((((first &&& 7).toNat * 64 + low_bits second) * 64 + low_bits third) * 64 + low_bits fourth),4)
  else (replacement,1)

/-- `String::from_utf8_lossy`, as the list of its characters -/
def utf8_lossy : Bytes → List Char
  | [] => []
  | first :: bytes =>
    let (character,width) := utf8_front first bytes
    character :: utf8_lossy (bytes.drop (width - 1))
termination_by bytes => bytes.length
decreasing_by simp

def namespace_for_key (key : Bytes) : String :=
  if starts_with key INTERNAL_KEY_PREFIX then
    "internal:" ++ String.ofList (utf8_lossy ((key.drop INTERNAL_KEY_PREFIX.length).takeWhile (· ≠ 58)))
  else "user"

abbrev Totals := Std.ExtTreeMap String UInt64 compare

/-- The bytes that each namespace holds, one entry of the map after another. -/
def count_entry (totals : Totals) (entry : Bytes × Bytes) : Except EngineError Totals :=
  let ns := namespace_for_key entry.1
  match (totals.getD ns 0).checked_add (.ofNat entry.2.length) with
  | none => .error .NamespaceQuotaOverflow
  | some total => .ok (totals.insert ns total)

/-- The last value that the operations give each key they touch. -/
def final_values (operations : List Operation) : Std.ExtTreeMap Bytes (Option Bytes) compare :=
  operations.foldl (fun values operation => match operation with
    | .Put key value => values.insert key (some value)
    | .Delete key => values.insert key none) ∅

/-- One turn of the loop over the final values. -/
def count_final (state : State) (max_bytes : UInt64) (totals : Totals) (entry : Bytes × Option Bytes) :
    Except EngineError Totals := do
  let ns := namespace_for_key entry.1
  let total := totals.getD ns 0
  let total := match state[entry.1]? with
    | some previous => total.saturating_sub (.ofNat previous.length)
    | none => total
  let total ← match entry.2 with
    | some value =>
      match total.checked_add (.ofNat value.length) with
      | none => .error .NamespaceQuotaOverflow
      | some total => .ok total
    | none => .ok total
  if total > max_bytes then .error (.NamespaceQuotaExceeded ns max_bytes) else .ok (totals.insert ns total)

def Store.check_namespace_quota (self : Store) (io : Io) (operations : List Operation) : Except EngineError Unit :=
  match self.options.namespace_max_bytes with
  | none => .ok ()
  | some max_bytes => do
    let totals ← self.state.toList.foldlM count_entry ∅
    let _ ← (io.walk (final_values operations).toList).foldlM (count_final self.state max_bytes) totals
    return ()

end VoodooStore
