import ArcusClient.Hosts.Types

/-!
# Queries on collections

A collection is a list, a set, a map or a b+tree.  A request names elements of it by a *sub key*: an
index, a map key, or a b+tree key, which is a number or an array of bytes.

An array of bytes is written in hexadecimal to a buffer on the stack.  If it is too long, nothing is
written and what the buffer had before is sent, so the texts take the contents of these buffers as an
argument.
-/

namespace ArcusClient.Coll

open CString

abbrev Byte := Fin 256

/-! ## Arguments -/

/-- `memcached_coll_action_t`. -/
inductive Verb where
  | lopInsert | lopGet | lopDelete
  | sopInsert | sopGet | sopDelete | sopExist
  | mopInsert | mopUpsert | mopUpdate | mopGet | mopDelete
  | bopInsert | bopGet | bopDelete
  | setattrs | getattrs
  | lopCreate | sopCreate | mopCreate | bopCreate
  | bopUpsert | bopUpdate | bopIncr | bopDecr | bopCount
  | bopSmget | bopMget | bopPosi | bopGbp | bopPwg
  | unknown
  deriving DecidableEq

def words (w w' : List Char) : CStr := lit (w ++ [' '] ++ w' ++ [' '])

/-- `coll_op_string`. -/
def collOpString : Verb → CStr
  | .lopInsert => words ['l', 'o', 'p'] ['i', 'n', 's', 'e', 'r', 't']
  | .lopGet => words ['l', 'o', 'p'] ['g', 'e', 't']
  | .lopDelete => words ['l', 'o', 'p'] ['d', 'e', 'l', 'e', 't', 'e']
  | .sopInsert => words ['s', 'o', 'p'] ['i', 'n', 's', 'e', 'r', 't']
  | .sopGet => words ['s', 'o', 'p'] ['g', 'e', 't']
  | .sopDelete => words ['s', 'o', 'p'] ['d', 'e', 'l', 'e', 't', 'e']
  | .sopExist => words ['s', 'o', 'p'] ['e', 'x', 'i', 's', 't']
  | .mopInsert => words ['m', 'o', 'p'] ['i', 'n', 's', 'e', 'r', 't']
  | .mopUpsert => words ['m', 'o', 'p'] ['u', 'p', 's', 'e', 'r', 't']
  | .mopUpdate => words ['m', 'o', 'p'] ['u', 'p', 'd', 'a', 't', 'e']
  | .mopGet => words ['m', 'o', 'p'] ['g', 'e', 't']
  | .mopDelete => words ['m', 'o', 'p'] ['d', 'e', 'l', 'e', 't', 'e']
  | .bopInsert => words ['b', 'o', 'p'] ['i', 'n', 's', 'e', 'r', 't']
  | .bopGet => words ['b', 'o', 'p'] ['g', 'e', 't']
  | .bopDelete => words ['b', 'o', 'p'] ['d', 'e', 'l', 'e', 't', 'e']
  | .setattrs => lit ['s', 'e', 't', 'a', 't', 't', 'r', ' ']
  | .getattrs => lit ['g', 'e', 't', 'a', 't', 't', 'r', ' ']
  | .lopCreate => words ['l', 'o', 'p'] ['c', 'r', 'e', 'a', 't', 'e']
  | .sopCreate => words ['s', 'o', 'p'] ['c', 'r', 'e', 'a', 't', 'e']
  | .mopCreate => words ['m', 'o', 'p'] ['c', 'r', 'e', 'a', 't', 'e']
  | .bopCreate => words ['b', 'o', 'p'] ['c', 'r', 'e', 'a', 't', 'e']
  | .bopUpsert => words ['b', 'o', 'p'] ['u', 'p', 's', 'e', 'r', 't']
  | .bopUpdate => words ['b', 'o', 'p'] ['u', 'p', 'd', 'a', 't', 'e']
  | .bopIncr => words ['b', 'o', 'p'] ['i', 'n', 'c', 'r']
  | .bopDecr => words ['b', 'o', 'p'] ['d', 'e', 'c', 'r']
  | .bopCount => words ['b', 'o', 'p'] ['c', 'o', 'u', 'n', 't']
  | .bopSmget => words ['b', 'o', 'p'] ['s', 'm', 'g', 'e', 't']
  | .bopMget => words ['b', 'o', 'p'] ['m', 'g', 'e', 't']
  | .bopPosi => words ['b', 'o', 'p'] ['p', 'o', 's', 'i', 't', 'i', 'o', 'n']
  | .bopGbp => words ['b', 'o', 'p'] ['g', 'b', 'p']
  | .bopPwg => words ['b', 'o', 'p'] ['p', 'w', 'g']
  | .unknown => lit ['u', 'n', 'k', 'n', 'o', 'w', 'n']

/-- `coll_op_length`. -/
def collOpLength : Verb → Nat
  | .lopGet | .sopGet | .mopGet | .bopGet | .setattrs | .getattrs | .bopGbp | .bopPwg => 8
  | .bopIncr | .bopDecr | .bopMget => 9
  | .sopExist | .bopCount | .bopSmget => 10
  | .bopPosi => 13
  | .unknown => 0
  | _ => 11

/-- `memcached_coll_overflowaction_t`. -/
inductive OverflowAction where
  | none | error | headTrim | tailTrim | smallestTrim | largestTrim
  | smallestSilentTrim | largestSilentTrim
  deriving DecidableEq

/-- `coll_overflowaction_string`. -/
def collOverflowactionString : OverflowAction → CStr
  | .none => lit ['u', 'n', 'i', 'n', 'i', 't', 'i', 'a', 'l', 'i', 'z', 'e', 'd']
  | .error => lit ['e', 'r', 'r', 'o', 'r']
  | .headTrim => lit ['h', 'e', 'a', 'd', '_', 't', 'r', 'i', 'm']
  | .tailTrim => lit ['t', 'a', 'i', 'l', '_', 't', 'r', 'i', 'm']
  | .smallestTrim => lit ['s', 'm', 'a', 'l', 'l', 'e', 's', 't', '_', 't', 'r', 'i', 'm']
  | .largestTrim => lit ['l', 'a', 'r', 'g', 'e', 's', 't', '_', 't', 'r', 'i', 'm']
  | .smallestSilentTrim => lit ['s', 'm', 'a', 'l', 'l', 'e', 's', 't', '_', 's', 'i', 'l', 'e',
      'n', 't', '_', 't', 'r', 'i', 'm']
  | .largestSilentTrim => lit ['l', 'a', 'r', 'g', 'e', 's', 't', '_', 's', 'i', 'l', 'e', 'n',
      't', '_', 't', 'r', 'i', 'm']

/-- `memcached_coll_create_attrs_st`. -/
structure CreateAttrs where
  flags : UInt32
  expiretime : Int
  maxcount : UInt32
  overflowaction : OverflowAction
  isUnreadable : Bool

/-- `memcached_hexadecimal_st`.  A null pointer has no array. -/
structure Hexadecimal where
  array : Option (List Byte)

/-- `memcached_coll_sub_key_type_t`. -/
inductive QueryType where
  | lop | lopRange | sop | mop | mopRange | bop | bopRange | bopExt | bopExtRange | unknown
  deriving DecidableEq

/-- A map key: the memory at its pointer, and its length. -/
structure Mkey where
  string : List Byte
  length : Nat

/-- `memcached_coll_sub_key_st`, with the members of the union side by side. -/
structure SubKey where
  index : Int
  indexRange : Int × Int
  bkey : UInt64
  bkeyRange : UInt64 × UInt64
  bkeyExt : List Byte
  bkeyExtRange : List Byte × List Byte
  mkey : Mkey
  /-- `string_array` and `length_array`. -/
  mkeys : List Mkey

inductive Bitwise where
  | and | or | xor

inductive Comp where
  | eq | ne | lt | le | gt | ge

/-- `bitwise_to_str`. -/
def bitwiseToStr : Bitwise → CStr
  | .and => lit ['&']
  | .or => lit ['|']
  | .xor => lit ['^']

/-- `compare_to_str`. -/
def compareToStr : Comp → CStr
  | .eq => lit ['E', 'Q']
  | .ne => lit ['N', 'E']
  | .lt => lit ['L', 'T']
  | .le => lit ['L', 'E']
  | .gt => lit ['G', 'T']
  | .ge => lit ['G', 'E']

/-- `memcached_coll_eflag_filter_st`.  The bitwise part is there if `is_bitwised`. -/
structure EflagFilter where
  offset : Nat
  bitwise : Option (Bitwise × List Byte)
  comp : Comp
  values : List (List Byte)

/-- `memcached_coll_eflag_update_st`. -/
structure EflagUpdate where
  offset : Nat
  bitwop : Option Bitwise
  value : List Byte

/-- `memcached_coll_query_st`. -/
structure Query where
  type : QueryType
  subKey : SubKey
  /-- The memory at `value`. -/
  value : List Byte
  valueLength : Nat
  offset : Nat
  count : Nat
  eflagFilter : Option EflagFilter

/-! ## Texts -/

def maxByteStringLength : Nat := 31 * 2 + 1

def hexDigit (n : Nat) : CChar := ofChar (Char.ofNat (if n < 10 then 48 + n else 55 + n))

/-- `convert_hex_to_str`. -/
def convertHexToStr (bytes : List Byte) : CStr :=
  bytes.flatMap fun b => [hexDigit (b.1 / 16), hexDigit (b.1 % 16)]

/-- The buffer after `memcached_conv_hex_to_str`, given what it had before. -/
def convHexToStr (str : CStr) (bytes : List Byte) : CStr :=
  if maxByteStringLength ≤ bytes.length * 2 then str else convertHexToStr bytes

/-- The `%u` conversion of a size. -/
def unsignedText (n : Nat) : CStr := decimal (n % 2 ^ 32)

def space : CStr := lit [' ']

/-- What `generate_str_bkey_from_query` writes to its buffer, or the error it reports. -/
def generateStrBkeyFromQuery (stack : Nat → CStr) (query : Query) (bufferLength : Nat)
    (supportRange : Bool) : Except ReturnT CStr :=
  let hex := lit [' ', '0', 'x']
  let written : Except ReturnT (Option CStr) :=
    match query.type with
    | .bop => .ok (some (space ++ decimal query.subKey.bkey.toNat))
    | .bopExt => .ok (some (hex ++ convHexToStr (stack 0) query.subKey.bkeyExt))
    | .bopRange =>
      if supportRange then
        .ok (some (space ++ decimal query.subKey.bkeyRange.1.toNat ++ lit ['.', '.'] ++
          decimal query.subKey.bkeyRange.2.toNat))
      else .error .invalidArguments
    | .bopExtRange =>
      if supportRange then
        .ok (some (hex ++ convHexToStr (stack 0) query.subKey.bkeyExtRange.1 ++
          lit ['.', '.', '0', 'x'] ++ convHexToStr (stack 1) query.subKey.bkeyExtRange.2))
      else .error .invalidArguments
    | _ => if supportRange then .ok none else .error .invalidArguments
  match written with
  | .error rc => .error rc
  | .ok none => .error .memoryAllocationFailure
  | .ok (some text) =>
    if bufferLength ≤ text.length then .error .memoryAllocationFailure else .ok text

/-- The loop over the values of a filter, with the buffer for hexadecimal texts. -/
def filterValues (str : CStr) : (first : Bool) → List (List Byte) → CStr
  | _, [] => []
  | first, value :: rest =>
    let str := convHexToStr str value
    (if first then [] else lit [',']) ++ lit ['0', 'x'] ++ str ++ filterValues str false rest

/-- What `memcached_coll_eflag_filter_to_str` writes, if it fits. -/
def eflagFilterToStr (stack : Nat → CStr) (filter : EflagFilter) (bufferLength : Nat) :
    Option CStr :=
  let text := match filter.bitwise with
    | some (op, value) =>
      let str := convHexToStr (stack 2) value
      space ++ unsignedText filter.offset ++ space ++ bitwiseToStr op ++ lit [' ', '0', 'x'] ++
        str ++ space ++ compareToStr filter.comp ++ space ++ filterValues str true filter.values
    | none =>
      space ++ unsignedText filter.offset ++ space ++ compareToStr filter.comp ++ space ++
        filterValues (stack 2) true filter.values
  if bufferLength ≤ text.length then none else some text

/-- What `memcached_coll_eflag_update_to_str` writes, if it fits. -/
def eflagUpdateToStr (stack : Nat → CStr) (update : EflagUpdate) (bufferLength : Nat) :
    Option CStr :=
  let str := convHexToStr (stack 2) update.value
  let text := match update.bitwop with
    | some op => space ++ unsignedText update.offset ++ space ++ bitwiseToStr op ++
        lit [' ', '0', 'x'] ++ str
    | none => lit [' ', '0', 'x'] ++ str
  if bufferLength ≤ text.length then none else some text

/-- The element flag of an insertion or of an initial value. -/
def eflagText (stack : Nat → CStr) (eflag : Option Hexadecimal) : CStr :=
  match eflag.bind Hexadecimal.array with
  | some bytes => lit [' ', '0', 'x'] ++ convHexToStr (stack 3) bytes
  | none => []

end ArcusClient.Coll
