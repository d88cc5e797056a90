import BackendLab.Support.CString
import Mathlib.Tactic.Common

/-!
# What the servers use of jsoncpp

The library itself is not part of the sources.  `JsonCpp` has the operations that
the client and the logic system use, and `JsonCpp.Documented` what they rely on
for the messages of the client.  `styled` is an implementation for messages
without control characters.
-/

namespace BackendLab.ServicePool

open Support

/-- The members of a message, and `MSG_HELLO_WORLD`. -/
def idKey : Bytes := ascii "id"
def dataKey : Bytes := ascii "data"
def msgHelloWorld : ℤ := 1001

/-- The operations on `Json::Value`, for which `ν` stands.  `access` is
`operator[]`, which adds a member that is missing.  What throws gives `none`. -/
structure JsonCpp (ν : Type*) where
  null : ν
  setInt : ν → Bytes → ℤ → ν
  setString : ν → Bytes → Bytes → ν
  access : ν → Bytes → Option ν
  asInt : ν → Bytes → Option ℤ
  asString : ν → Bytes → Option Bytes
  toStyledString : ν → Bytes
  parse : Bytes → Option ν

/-- A character that is written as it is inside a string. -/
def Plain (b : UInt8) : Prop :=
  32 ≤ b ∧ b < 127 ∧ b ≠ 34 ∧ b ≠ 92

instance : DecidablePred Plain :=
  fun b => inferInstanceAs (Decidable (32 ≤ b ∧ b < 127 ∧ b ≠ 34 ∧ b ≠ 92))

namespace JsonCpp

variable {ν : Type*} (j : JsonCpp ν)

/-- The object with an identifier and a text. -/
def message (id : ℤ) (data : Bytes) : ν :=
  j.setString (j.setInt j.null idKey id) dataKey data

/-- What is relied on for the objects of the client: the members are there, the
text that is written gives the object back when it is parsed, and its length is
that of the data, escaped, and `overhead`. -/
structure Documented (overhead : ℕ) (escaped : Bytes → ℕ) : Prop where
  access_id : ∀ data, j.access (j.message msgHelloWorld data) idKey =
    some (j.message msgHelloWorld data)
  access_data : ∀ data, j.access (j.message msgHelloWorld data) dataKey =
    some (j.message msgHelloWorld data)
  asInt_id : ∀ data, j.asInt (j.message msgHelloWorld data) idKey =
    some msgHelloWorld
  asString_data : ∀ data, j.asString (j.message msgHelloWorld data) dataKey =
    some data
  setString_data : ∀ data text,
    j.setString (j.message msgHelloWorld data) dataKey text =
      j.message msgHelloWorld text
  parse_styled : ∀ data,
    j.parse (j.toStyledString (j.message msgHelloWorld data)) =
      some (j.message msgHelloWorld data)
  length_styled : ∀ data,
    (j.toStyledString (j.message msgHelloWorld data)).length =
      overhead + escaped data
  escaped_plain : ∀ b data, Plain b → escaped (b :: data) = escaped data + 1

variable {j} {overhead : ℕ} {escaped : Bytes → ℕ}

theorem Documented.escaped_append (h : j.Documented overhead escaped)
    {text : Bytes} (htext : ∀ b ∈ text, Plain b) (data : Bytes) :
    escaped (text ++ data) = escaped data + text.length := by
  induction text with
  | nil => rfl
  | cons b text ih =>
      have hrest := ih fun c hc => htext c (List.mem_cons_of_mem _ hc)
      rw [List.cons_append, h.escaped_plain b _ (htext b List.mem_cons_self),
        hrest, List.length_cons]
      omega

end JsonCpp

/-! ## An implementation -/

/-- An object with the members of a message. -/
structure JsonMessage where
  id : Option ℤ
  data : Option Bytes
  deriving DecidableEq, Repr

namespace JsonMessage

def quote : UInt8 := 34
def backslash : UInt8 := 92

def escapeByte (b : UInt8) : Bytes :=
  if b = quote ∨ b = backslash then [backslash, b] else [b]

def escape (data : Bytes) : Bytes :=
  data.flatMap escapeByte

/-- The string up to its closing quote, and what follows. -/
def unescape : Bytes → Option (Bytes × Bytes)
  | [] => none
  | b :: rest =>
      if b = quote then some ([], rest)
      else if b = backslash then
        match rest with
        | [] => none
        | c :: rest => (unescape rest).map fun r => (c :: r.1, r.2)
      else (unescape rest).map fun r => (b :: r.1, r.2)

/-- What follows a given text. -/
def after (text : Bytes) (bs : Bytes) : Option Bytes :=
  if text <+: bs then some (bs.drop text.length) else none

def beforeData : Bytes := ascii "\x7b\n\t\"data\" : \""
def beforeId : Bytes := ascii ",\n\t\"id\" : "
def atEnd : Bytes := ascii "\n\x7d\n"

def natOf (digits : Bytes) : ℕ :=
  digits.foldl (fun n b => 10 * n + (b.toNat - 48)) 0

def write (m : JsonMessage) : Bytes :=
  beforeData ++ (escape (m.data.getD []) ++ quote :: (beforeId ++
    (ascii (toString (m.id.getD 0)) ++ atEnd)))

def read (text : Bytes) : Option JsonMessage := do
  let text ← after beforeData text
  let (data, text) ← unescape text
  let text ← after beforeId text
  let digits := text.takeWhile isDigit
  let text ← after atEnd (text.dropWhile isDigit)
  if text = [] ∧ digits ≠ [] then
    return ⟨some (natOf digits), some data⟩
  else none

theorem after_append (text bs : Bytes) : after text (text ++ bs) = some bs := by
  simp [after]

theorem unescape_quote (rest : Bytes) :
    unescape (quote :: rest) = some ([], rest) := by
  rw [unescape.eq_def]
  simp

theorem unescape_append (b : UInt8) (bs : Bytes) :
    unescape (escapeByte b ++ bs) =
      (unescape bs).map fun r => (b :: r.1, r.2) := by
  have hne : backslash ≠ quote := by decide
  rw [escapeByte]
  split
  · simp [unescape, hne]
  · next hb =>
      simp only [not_or] at hb
      rw [List.singleton_append, unescape.eq_def]
      simp [hb]

theorem unescape_escape (data rest : Bytes) :
    unescape (escape data ++ quote :: rest) = some (data, rest) := by
  induction data with
  | nil => exact unescape_quote rest
  | cons b data ih =>
      rw [escape, List.flatMap_cons, List.append_assoc, unescape_append, ← escape,
        ih, Option.map_some]

theorem read_write (data : Bytes) :
    read (write ⟨some msgHelloWorld, some data⟩) =
      some ⟨some msgHelloWorld, some data⟩ := by
  have htail : after beforeId (beforeId ++
      (ascii (toString msgHelloWorld) ++ atEnd)) =
        some (ascii (toString msgHelloWorld) ++ atEnd) := after_append _ _
  have hdigits : (ascii (toString msgHelloWorld) ++ atEnd).takeWhile isDigit =
      ascii "1001" := by decide
  have hend : after atEnd
      ((ascii (toString msgHelloWorld) ++ atEnd).dropWhile isDigit) =
        some [] := by decide
  have hnat : (natOf (ascii "1001") : ℤ) = msgHelloWorld := by decide
  simp only [read, write, Option.getD_some, after_append, unescape_escape,
    htail, hdigits, hend, hnat, Option.bind_eq_bind, Option.bind_some]
  rfl

end JsonMessage

open JsonMessage in
def styled : JsonCpp JsonMessage where
  null := ⟨none, none⟩
  setInt := fun m key n => if key = idKey then { m with id := some n } else m
  setString := fun m key text =>
    if key = dataKey then { m with data := some text } else m
  access := fun m _ => some m
  asInt := fun m key => if key = idKey then m.id else none
  asString := fun m key => if key = dataKey then m.data else none
  toStyledString := write
  parse := read

theorem length_escape_cons {b : UInt8} (hb : Plain b) (data : Bytes) :
    (JsonMessage.escape (b :: data)).length =
      (JsonMessage.escape data).length + 1 := by
  have hne : ¬ (b = JsonMessage.quote ∨ b = JsonMessage.backslash) := by
    rintro (rfl | rfl)
    · exact hb.2.2.1 rfl
    · exact hb.2.2.2 rfl
  rw [JsonMessage.escape, List.flatMap_cons, JsonMessage.escapeByte, if_neg hne,
    List.length_append, ← JsonMessage.escape, List.length_singleton, Nat.add_comm]

theorem documented_styled :
    styled.Documented 31 fun data => (JsonMessage.escape data).length where
  access_id := fun _ => rfl
  access_data := fun _ => rfl
  asInt_id := fun _ => rfl
  asString_data := fun _ => rfl
  setString_data := fun _ _ => rfl
  parse_styled := JsonMessage.read_write
  length_styled := by
    intro data
    have hbefore : JsonMessage.beforeData.length = 13 := by decide
    have hafter : (JsonMessage.beforeId ++ (ascii (toString msgHelloWorld) ++
        JsonMessage.atEnd)).length = 17 := by decide
    change (JsonMessage.write ⟨some msgHelloWorld, some data⟩).length = _
    simp only [JsonMessage.write, Option.getD_some, List.length_append,
      List.length_cons] at hafter ⊢
    omega
  escaped_plain := fun _ data hb => length_escape_cons hb data

end BackendLab.ServicePool
