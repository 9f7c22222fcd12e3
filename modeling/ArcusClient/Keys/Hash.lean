import ArcusClient.Hosts.Continuum
import ArcusClient.Collection.Request
import Mathlib.Data.List.TakeWhile

/-!
# The server of a key

A client may have a *namespace*, a text that it puts before its keys.  `_generate_hash_wrapper` copies
the two to a buffer with `strncpy` and hashes the copy, and the hash is zero if they do not fit.
`HashedAsSent` says when the bytes that are hashed are the namespace and the key.
-/

namespace ArcusClient.Keys

open CString Coll List

/-! ## Namespaces -/

/-- `MEMCACHED_PREFIX_KEY_MAX_SIZE`. -/
def prefixKeyMaxSize : Nat := 128

/-- The namespace of a client.  Without one, it is empty.  `memcached_set_namespace` refuses a longer
one. -/
structure Namespace where
  bytes : List Byte
  length_lt : bytes.length < prefixKeyMaxSize

theorem Namespace.nil_length_lt : ([] : List Byte).length < prefixKeyMaxSize := by decide

/-! ## Hashes -/

/-- What the hash of a key depends on, apart from the servers. -/
structure Hashing where
  ns : Namespace
  enableShardKey : Bool
  /-- `hashkit_digest`.  The application may set a function of its own. -/
  digest : List Byte → UInt32

/-- `get_shard_key`: the text between the first brace and the next closing one. -/
def getShardKey (key : List Byte) : List Byte :=
  let left := key.dropWhile (· ≠ (ofChar '\x7b').1)
  let afterLeft := left.tail
  let tag := afterLeft.takeWhile (· ≠ (ofChar '\x7d').1)
  if left = [] ∨ tag.length = afterLeft.length ∨ tag = [] then key else tag

def generateHash (h : Hashing) (key : List Byte) : UInt32 :=
  h.digest (if h.enableShardKey then getShardKey key else key)

/-- `strncpy` of so many bytes as the source has: what follows a zero byte is replaced by
zero bytes. -/
def strncpy (source : List Byte) : List Byte :=
  let copied := source.takeWhile (· ≠ 0)
  copied ++ List.replicate (source.length - copied.length) 0

/-- `_generate_hash_wrapper`. -/
def generateHashWrapper (h : Hashing) (mc : Memcached) (key : List Byte) : UInt32 :=
  if mc.numberOfHosts = 1 then 0
  else if 0 < h.ns.bytes.length then
    let tempLength := h.ns.bytes.length + key.length
    if maxKey ≤ tempLength then 0
    else generateHash h (strncpy h.ns.bytes ++ strncpy key)
  else generateHash h key

/-- `_regen_for_auto_eject`, at the time `now` if it is known. -/
def regenForAutoEject (P : Platform) (env : Env) (now : Option Nat) (mc : Memcached) :
    Except Fault Memcached :=
  let rebuild := mc.ketama.nextDistributionRebuild
  match now with
  | some now =>
    if mc.flags.autoEjectHosts && rebuild != 0 && rebuild < now then
      (runDistribution P env mc).map Prod.snd
    else .ok mc
  | none => .ok mc

/-- `memcached_generate_hash_with_redistribution`, with the client afterwards. -/
def memcachedGenerateHashWithRedistribution (P : Platform) (env : Env) (now : Option Nat)
    (random : Nat) (h : Hashing) (mc : Memcached) (key : List Byte) :
    Except Fault (Option Nat × Memcached) := do
  let hash := generateHashWrapper h mc key
  let mc ← regenForAutoEject P env now mc
  return (dispatchHost mc random hash.toNat, mc)

/-! ## What is hashed -/

theorem length_strncpy (source : List Byte) : (strncpy source).length = source.length := by
  have hl := (takeWhile_sublist (· ≠ 0) (l := source)).length_le
  simp only [strncpy, length_append, length_replicate]
  omega

theorem strncpy_append_inj (h : strncpy a ++ strncpy b = a ++ b) : strncpy a = a ∧ strncpy b = b :=
  append_inj h (length_strncpy a)

/-- The key is hashed as the server gets to see it: behind the namespace, and in full. -/
def HashedAsSent (ns : Namespace) (key : List Byte) : Prop :=
  ns.bytes = [] ∨
    (ns.bytes.length + key.length < maxKey ∧ strncpy ns.bytes = ns.bytes ∧ strncpy key = key)

instance (ns : Namespace) (key : List Byte) : Decidable (HashedAsSent ns key) :=
  inferInstanceAs (Decidable (_ ∨ _))

theorem generateHashWrapper_of_hashedAsSent
    (hs : HashedAsSent h.ns key) (hse : mc.numberOfHosts ≠ 1) :
    generateHashWrapper h mc key = generateHash h (h.ns.bytes ++ key) := by
  rw [generateHashWrapper, if_neg hse]
  rcases hs with he | ⟨hsh, hn, hk⟩
  · simp [he]
  · rw [hn, hk]
    split
    · exact if_neg (not_le.2 hsh)
    · next he =>
        have hni : h.ns.bytes = [] := length_eq_zero_iff.1 (by omega)
        rw [hni, nil_append]

theorem generateHashWrapper_of_not_hashedAsSent
    (hs : ¬ HashedAsSent h.ns key) : generateHashWrapper h mc key = 0 ∨
      ∃ bytes, bytes ≠ h.ns.bytes ++ key ∧ generateHashWrapper h mc key = generateHash h bytes := by
  rw [HashedAsSent, not_or, not_and_or, not_lt] at hs
  obtain ⟨hn, hc⟩ := hs
  by_cases ho : mc.numberOfHosts = 1
  · exact .inl (by rw [generateHashWrapper, if_pos ho])
  rw [generateHashWrapper, if_neg ho, if_pos (length_pos_iff.2 hn)]
  dsimp only
  split
  · exact .inl rfl
  · next hshort =>
      refine .inr ⟨_, fun he => ?_, rfl⟩
      exact (hc.resolve_left hshort) (strncpy_append_inj he)

end ArcusClient.Keys
