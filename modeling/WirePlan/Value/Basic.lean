import WirePlan.Format
import WirePlan.Keyed

/-!
# Values

What a field holds at run time. An integer is a word of its format's width, so two integers of one
format are equal exactly when their bytes are; identifiers and addresses have their number of bytes
in the type. The fields of a struct are a dictionary.
-/

namespace WirePlan

/-- A number of bytes. -/
abbrev Octets (n : Nat) := { bytes : List UInt8 // bytes.length = n }

/-- The same byte over and over. -/
def Octets.replicate (n : Nat) (b : UInt8) : Octets n := ⟨List.replicate n b, by simp⟩

/-- The bytes, if they are as many as wanted. -/
def Octets.ofList? (n : Nat) (bytes : List UInt8) : Option (Octets n) :=
  if h : bytes.length = n then some ⟨bytes, h⟩ else none

/-- A value. -/
inductive Value where
  | int (format : IntFormat) (word : BitVec format.bits)
  | uuid (bytes : Octets 16)
  | string (text : String)
  | ipv4 (bytes : Octets 4)
  | ipv6 (bytes : Octets 16)
  | array (items : List Value)
  | struct (fields : List (String × Value))

/-- The values of the fields of a container or struct. -/
abbrev Fields := Keyed Value

namespace Value

/-- The integer with the low bits of a number. -/
def ofNat (format : IntFormat) (n : Nat) : Value := .int format (.ofNat _ n)

/-- The number that an integer without sign is. -/
def natural? : Value → Option Nat
  | .int f w => if f.isSigned then none else some w.toNat
  | _ => none

/-- The number that an integer is. -/
def integer? : Value → Option Int
  | .int f w => some (if f.isSigned then w.toInt else w.toNat)
  | _ => none

/-- The text of a string. -/
def text? : Value → Option String
  | .string s => some s
  | _ => none

/-- The items of an array. -/
def items? : Value → Option (List Value)
  | .array items => some items
  | _ => none

/-- The fields of a struct. -/
def fields? : Value → Option Fields
  | .struct fields => some fields
  | _ => none

/-! ## Equality is decidable -/

mutual

/-- Decides whether two values are equal. -/
def decEq : (a b : Value) → Decidable (a = b)
  | .int f w, .int g v =>
    if h : f = g then
      if hw : h ▸ w = v then isTrue (by subst h; subst hw; rfl)
      else isFalse (by subst h; intro e; injection e with _ e; exact hw e)
    else isFalse (by intro e; injection e with e; exact h e)
  | .uuid a, .uuid b => decidable_of_iff (a = b) ⟨congrArg _, fun e => by injection e⟩
  | .string a, .string b => decidable_of_iff (a = b) ⟨congrArg _, fun e => by injection e⟩
  | .ipv4 a, .ipv4 b => decidable_of_iff (a = b) ⟨congrArg _, fun e => by injection e⟩
  | .ipv6 a, .ipv6 b => decidable_of_iff (a = b) ⟨congrArg _, fun e => by injection e⟩
  | .array a, .array b =>
    match decEqItems a b with
    | isTrue h => isTrue (congrArg _ h)
    | isFalse h => isFalse (fun e => h (by injection e))
  | .struct a, .struct b =>
    match decEqFields a b with
    | isTrue h => isTrue (congrArg _ h)
    | isFalse h => isFalse (fun e => h (by injection e))
  | .int .., .uuid _ | .int .., .string _ | .int .., .ipv4 _ | .int .., .ipv6 _
  | .int .., .array _ | .int .., .struct _ => isFalse nofun
  | .uuid _, .int .. | .uuid _, .string _ | .uuid _, .ipv4 _ | .uuid _, .ipv6 _
  | .uuid _, .array _ | .uuid _, .struct _ => isFalse nofun
  | .string _, .int .. | .string _, .uuid _ | .string _, .ipv4 _ | .string _, .ipv6 _
  | .string _, .array _ | .string _, .struct _ => isFalse nofun
  | .ipv4 _, .int .. | .ipv4 _, .uuid _ | .ipv4 _, .string _ | .ipv4 _, .ipv6 _
  | .ipv4 _, .array _ | .ipv4 _, .struct _ => isFalse nofun
  | .ipv6 _, .int .. | .ipv6 _, .uuid _ | .ipv6 _, .string _ | .ipv6 _, .ipv4 _
  | .ipv6 _, .array _ | .ipv6 _, .struct _ => isFalse nofun
  | .array _, .int .. | .array _, .uuid _ | .array _, .string _ | .array _, .ipv4 _
  | .array _, .ipv6 _ | .array _, .struct _ => isFalse nofun
  | .struct _, .int .. | .struct _, .uuid _ | .struct _, .string _ | .struct _, .ipv4 _
  | .struct _, .ipv6 _ | .struct _, .array _ => isFalse nofun

/-- Decides whether two lists of items are equal. -/
def decEqItems : (a b : List Value) → Decidable (a = b)
  | [], [] => isTrue rfl
  | x :: xs, y :: ys =>
    match decEq x y, decEqItems xs ys with
    | isTrue h, isTrue k => isTrue (by rw [h, k])
    | isFalse h, _ => isFalse (fun e => h (by injection e))
    | _, isFalse k => isFalse (fun e => k (by injection e))
  | [], _ :: _ | _ :: _, [] => isFalse nofun

/-- Decides whether two lists of entries are equal. -/
def decEqFields : (a b : List (String × Value)) → Decidable (a = b)
  | [], [] => isTrue rfl
  | (m, x) :: xs, (n, y) :: ys =>
    if hm : m = n then
      match decEq x y, decEqFields xs ys with
      | isTrue h, isTrue k => isTrue (by rw [hm, h, k])
      | isFalse h, _ => isFalse (fun e => h (by injection e with e; injection e))
      | _, isFalse k => isFalse (fun e => k (by injection e))
    else isFalse (fun e => hm (by injection e with e; injection e))
  | [], _ :: _ | _ :: _, [] => isFalse nofun

end

instance : DecidableEq Value := decEq

end Value

end WirePlan
