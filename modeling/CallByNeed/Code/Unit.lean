import CallByNeed.Code.Bytes
import CallByNeed.Code.Constant
import CallByNeed.Digest.Sha256

/-!
# Code units

The code of one body with everything it refers to: constants, the units of its late arguments, and
the function literals in it. A unit has a listing and a fingerprint; the fingerprint covers all that
running the unit depends on, and no names of units.
-/

namespace CallByNeed

/-- A compiled function literal over units of type `υ`: its formals, each with the unit of its
default, and the unit of its body. -/
structure FunctionOf (υ : Type) where
  name : String
  formals : List (Formal υ)
  body : υ

/-- The code of a body. -/
structure CodeUnit where
  name : String
  /-- The instructions. -/
  code : Bytes
  /-- What instructions refer to by index. -/
  constants : Array Constant
  /-- The size of the frame, reserved slots included. -/
  slots : Nat
  /-- The units of late arguments, by index. -/
  thunks : List CodeUnit
  /-- The function literals, by index. -/
  closures : List (FunctionOf CodeUnit)

/-- A compiled function literal. -/
abbrev FunctionUnit := FunctionOf CodeUnit

namespace CodeUnit

/-! ## Listing -/

/-- The lines of a unit without its nested units; `none` if an operand runs off the end. -/
def ownLines? (name : String) (code : Bytes) (constants : Array Constant) (slots : Nat) :
    Option (List String) := do
  let lines ← code.listing?
  let pool :=
    if constants.isEmpty then []
    else "constants:" :: constants.toList.mapIdx fun i c => s!"  {i}: {c.text}"
  some (s!"== {name} (slots: {slots}) ==" :: (lines ++ pool))

mutual

/-- The lines of a unit and of the units inside it. -/
def listing? : CodeUnit → Option (List String)
  | ⟨name, code, constants, slots, thunks, closures⟩ => do
    let own ← ownLines? name code constants slots
    let thunks ← listings? thunks
    let closures ← closureListings? closures
    some (own ++ thunks ++ closures)

/-- The lines of several units. -/
def listings? : List CodeUnit → Option (List String)
  | [] => some []
  | u :: rest => do
    let u ← u.listing?
    let rest ← listings? rest
    some (u ++ rest)

/-- The lines of function literals: defaults, then bodies. -/
def closureListings? : List FunctionUnit → Option (List String)
  | [] => some []
  | ⟨_, formals, body⟩ :: rest => do
    let formals ← defaultListings? formals
    let body ← body.listing?
    let rest ← closureListings? rest
    some (formals ++ body ++ rest)

/-- The lines of the defaults of formals. -/
def defaultListings? : List (Formal CodeUnit) → Option (List String)
  | [] => some []
  | ⟨_, some u⟩ :: rest => do
    let u ← u.listing?
    let rest ← defaultListings? rest
    some (u ++ rest)
  | ⟨_, none⟩ :: rest => defaultListings? rest

end

/-! ## Fingerprint -/

/-- What is hashed of a unit itself: its code, the size of its frame, and its constants. -/
def ownPreimage (code : Bytes) (constants : Array Constant) (slots : Nat) : List UInt8 :=
  code.toList ++ Sha256.bigEndian 4 slots
    ++ constants.toList.flatMap fun c => c.toJson.compact.toUTF8.toList

mutual

/-- The digest of a unit under a hash function: its own part, the digests of its late arguments, and
for each function literal the names and defaults of its formals and its body. -/
def digestWith (hash : List UInt8 → List UInt8) : CodeUnit → List UInt8
  | ⟨_, code, constants, slots, thunks, closures⟩ =>
    hash (ownPreimage code constants slots ++ digests hash thunks ++ closureDigests hash closures)

/-- The digests of several units. -/
def digests (hash : List UInt8 → List UInt8) : List CodeUnit → List UInt8
  | [] => []
  | u :: rest => digestWith hash u ++ digests hash rest

/-- What is hashed of function literals. -/
def closureDigests (hash : List UInt8 → List UInt8) : List FunctionUnit → List UInt8
  | [] => []
  | ⟨_, formals, body⟩ :: rest =>
    formalDigests hash formals ++ digestWith hash body ++ closureDigests hash rest

/-- What is hashed of formals. -/
def formalDigests (hash : List UInt8 → List UInt8) : List (Formal CodeUnit) → List UInt8
  | [] => []
  | ⟨name, some u⟩ :: rest =>
    name.name.toUTF8.toList ++ digestWith hash u ++ formalDigests hash rest
  | ⟨name, none⟩ :: rest => name.name.toUTF8.toList ++ formalDigests hash rest

end

/-- The fingerprint of a unit: its SHA-256 digest in hexadecimal. -/
def fingerprint (u : CodeUnit) : String := Sha256.hex (u.digestWith Sha256.digest)

end CodeUnit

end CallByNeed
