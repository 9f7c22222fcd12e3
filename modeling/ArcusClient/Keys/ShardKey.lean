import ArcusClient.Keys.Routing

/-!
# Keys with a tag

With `enable_shard_key` a client hashes the tag of a key, so that keys with one tag go to one server.
If there is a namespace it looks for the tag in a copy of the two, which ends at a zero byte, and a key
that does not fit has the hash zero.  `SameShard` says what two keys need (`shard_key_iff`).
-/

namespace ArcusClient.Keys

open CString Coll List

abbrev openBrace : Byte := (ofChar '\x7b').1

abbrev closeBrace : Byte := (ofChar '\x7d').1

/-- A key with a tag between its first brace and the next closing one. -/
structure TaggedKey where
  before : List Byte
  tag : List Byte
  after : List Byte
  no_open : openBrace ∉ before
  no_close : closeBrace ∉ tag
  tag_ne : tag ≠ []

def TaggedKey.bytes (k : TaggedKey) : List Byte := k.before ++ openBrace :: (k.tag ++ closeBrace :: k.after)

def Untagged (key : List Byte) : Prop := ∀ k : TaggedKey, key ≠ k.bytes

variable {ns : Namespace} {key text rest tag : List Byte} {k k₁ k₂ : TaggedKey}

/-! ## Looking for the tag -/

/-- The tag that `get_shard_key` returns, if it does not return the key. -/
def shardTag (key : List Byte) : Option (List Byte) :=
  let afterLeft := (key.dropWhile (· ≠ openBrace)).tail
  let tag := afterLeft.takeWhile (· ≠ closeBrace)
  if key.dropWhile (· ≠ openBrace) = [] ∨ tag.length = afterLeft.length ∨ tag = [] then none else some tag

theorem getShardKey_eq (key : List Byte) : getShardKey key = (shardTag key).getD key := by
  rw [shardTag, getShardKey]
  split <;> rfl

theorem all_ne_of_notMem (h : c ∉ text) : ∀ b ∈ text, decide (b ≠ c) = true :=
  fun _ hb => decide_eq_true fun he => h (he ▸ hb)

theorem shardTag_append (h : openBrace ∉ text) : shardTag (text ++ key) = shardTag key := by
  simp only [shardTag, dropWhile_append_of_pos (all_ne_of_notMem h)]

theorem shardTag_open : shardTag (openBrace :: rest) =
    if (rest.takeWhile (· ≠ closeBrace)).length = rest.length ∨ rest.takeWhile (· ≠ closeBrace) =
      [] then none
    else some (rest.takeWhile (· ≠ closeBrace)) := by
  simp [shardTag]

theorem takeWhile_tag (h : closeBrace ∉ tag) : (tag ++ closeBrace :: rest).takeWhile
    (· ≠ closeBrace) = tag := by
  rw [takeWhile_append_of_pos (all_ne_of_notMem h), takeWhile_cons_of_neg (by simp), append_nil]

theorem shardTag_bytes (k : TaggedKey) : shardTag k.bytes = some k.tag := by
  rw [TaggedKey.bytes, shardTag_append k.no_open, shardTag_open, takeWhile_tag k.no_close]
  simp [k.tag_ne]

theorem exists_of_shardTag (h : shardTag key = some tag) : ∃ k :
    TaggedKey, key = k.bytes ∧ k.tag = tag := by
  have ho : openBrace ∈ key := by
    simp [shardTag] at h
    exact h.1.1
  obtain ⟨before, rest, rfl, hb⟩ := eq_append_cons_of_mem ho
  rw [shardTag_append hb, shardTag_open] at h
  have hc : closeBrace ∈ rest := by
    by_contra hn
    have ha := takeWhile_eq_self_iff.2 (all_ne_of_notMem hn)
    rw [ha, if_pos (.inl rfl)] at h
    cases h
  obtain ⟨tag', after, rfl, ht⟩ := eq_append_cons_of_mem hc
  rw [takeWhile_tag ht] at h
  obtain ⟨hne, ⟨⟩⟩ := Option.ite_none_left_eq_some.1 h
  exact ⟨⟨before, _, after, hb, ht, fun hni => hne (.inr hni)⟩, rfl, rfl⟩

/-! ## Looking for it in the copy -/

theorem strncpy_cons (b : Byte) (source : List Byte) : strncpy (b :: source) =
    if b = 0 then List.replicate (source.length + 1) 0 else b :: strncpy source := by
  by_cases hb : b = 0 <;> simp [strncpy, hb]

theorem strncpy_append (h : 0 ∉ text) : strncpy (text ++ rest) = text ++ strncpy rest := by
  induction text with
  | nil => rfl
  | cons b text ih => grind [strncpy_cons]

/-- What the copy has before some character is what the source has. -/
theorem exists_of_strncpy (hb : b ≠ 0) (h : strncpy key = text ++ b :: rest) :
    ∃ rest', key = text ++ b :: rest' ∧ 0 ∉ text := by
  induction text generalizing key with
  | nil =>
    cases key with
    | nil => cases h
    | cons c key => grind [strncpy_cons]
  | cons d text ih =>
    cases key with
    | nil => cases h
    | cons c key =>
      rw [strncpy_cons] at h
      split at h
      · have hm : b ∈ d :: text ++ b :: rest := by simp
        rw [← h] at hm
        exact absurd (eq_of_mem_replicate hm) hb
      · next hc =>
        obtain ⟨rfl, hco⟩ := cons.inj h
        obtain ⟨rest', rfl, hz⟩ := ih hco
        exact ⟨rest', rfl, by simpa [hz] using Ne.symm hc⟩

theorem exists_of_shardTag_strncpy (h : shardTag (strncpy key) = some tag) :
    ∃ k : TaggedKey, key = k.bytes ∧ k.tag = tag ∧ 0 ∉ k.before ++ k.tag := by
  obtain ⟨k, hk, rfl⟩ := exists_of_shardTag h
  rw [TaggedKey.bytes, ← cons_append, ← append_assoc] at hk
  obtain ⟨after, rfl, hz⟩ := exists_of_strncpy (by decide) hk
  refine ⟨⟨k.before, k.tag, after, k.no_open, k.no_close, k.tag_ne⟩, by simp [TaggedKey.bytes], rfl, ?_⟩
  simp only [mem_append, mem_cons, not_or] at hz ⊢
  exact ⟨hz.1, hz.2.2⟩

theorem getShardKey_copy (hn : openBrace ∉ ns.bytes) (key : List Byte) :
    getShardKey (strncpy ns.bytes ++ strncpy key) =
      (shardTag (strncpy key)).getD (strncpy ns.bytes ++ strncpy key) := by
  have ho : openBrace ∉ strncpy ns.bytes := by
    intro hm
    rcases mem_append.1 hm with hc | hz
    · exact hn ((takeWhile_sublist _).subset hc)
    · exact absurd (eq_of_mem_replicate hz) (by decide)
  rw [getShardKey_eq, shardTag_append ho]

/-- Without a tag it makes no difference that shard keys are enabled. -/
theorem generateHashWrapper_of_untagged (hn : openBrace ∉ ns.bytes) (hke : Untagged key)
    (digest : List Byte → UInt32) (mc : Memcached) :
    generateHashWrapper ⟨ns, true, digest⟩ mc key = generateHashWrapper
      ⟨ns, false, digest⟩ mc key := by
  have hno : shardTag key = none := Option.eq_none_iff_forall_ne_some.2 fun tag ht => by
    obtain ⟨k, hk, -⟩ := exists_of_shardTag ht
    exact hke k hk
  have hc : shardTag (strncpy key) = none := Option.eq_none_iff_forall_ne_some.2 fun tag ht => by
    obtain ⟨k, hk, -⟩ := exists_of_shardTag_strncpy ht
    exact hke k hk
  simp [generateHashWrapper, generateHash, getShardKey_copy hn, hc, getShardKey_eq, hno]

/-! ## Keys with one tag -/

/-- The bytes that a client with shard keys takes the hash of, if it does. -/
def hashedBytes (ns : Namespace) (key : List Byte) : Option (List Byte) :=
  if 0 < ns.bytes.length then
    if maxKey ≤ ns.bytes.length + key.length then none
    else some (getShardKey (strncpy ns.bytes ++ strncpy key))
  else some (getShardKey key)

theorem generateHashWrapper_eq (ns : Namespace) (digest : List Byte → UInt32)
    (hh : mc.numberOfHosts ≠ 1) (key : List Byte) :
    generateHashWrapper ⟨ns, true, digest⟩ mc key = ((hashedBytes ns key).map digest).getD 0 := by
  rw [generateHashWrapper, if_neg hh, hashedBytes]
  dsimp only
  split_ifs <;> rfl

/-- With one ring, and at one time, two keys go to one server. -/
def ServedTogether (ns : Namespace) (key₁ key₂ : List Byte) : Prop :=
  ∀ (digest : List Byte → UInt32) (P : Platform) (env : Env) (now : Option Nat) (random : Nat) (mc : Memcached),
    memcachedGenerateHashWithRedistribution P env now random ⟨ns, true, digest⟩ mc key₁ =
      memcachedGenerateHashWithRedistribution P env now random ⟨ns, true, digest⟩ mc key₂

/-- Some hash function has one on the first point of a ring and the other on the second. -/
theorem exists_digest {x y : Option (List Byte)} (h : x ≠ y) : ∃ digest : List Byte → UInt32,
    (x.map digest).getD 0 = 0 ∧ (y.map digest).getD 0 = 1 ∨ (x.map digest).getD 0 = 1 ∧
    (y.map digest).getD 0 = 0 := by
  cases x with
  | none =>
    cases y with
    | none => exact absurd rfl h
    | some b => exact ⟨fun _ => 1, .inl ⟨rfl, rfl⟩⟩
  | some a =>
    refine ⟨fun bytes => if bytes = a then 1 else 0, .inr ⟨if_pos rfl, ?_⟩⟩
    cases y with
    | none => rfl
    | some b => exact if_neg fun he => h (congrArg some he.symm)

theorem servedTogether_iff :
    ServedTogether ns key₁ key₂ ↔ hashedBytes ns key₁ = hashedBytes ns key₂ := by
  refine ⟨fun h => ?_, fun h digest P env now random mc => ?_⟩
  · by_contra hn
    obtain ⟨digest, hd⟩ := exists_digest hn
    have h := h digest (Platform.ofMd5 fun _ _ => 0) Env.granted none 0 (twoPoints 2)
    rw [memcachedGenerateHashWithRedistribution, memcachedGenerateHashWithRedistribution,
      generateHashWrapper_eq ns _ (by decide), generateHashWrapper_eq ns _ (by decide)] at h
    rcases hd with ⟨h₁, h₂⟩ | ⟨h₁, h₂⟩
    all_goals
      rw [h₁, h₂] at h
      cases h
  · have hh : generateHashWrapper ⟨ns, true, digest⟩ mc key₁ = generateHashWrapper ⟨ns, true, digest⟩ mc key₂ := by
      by_cases hho : mc.numberOfHosts = 1
      · rw [generateHashWrapper, generateHashWrapper, if_pos hho, if_pos hho]
      · rw [generateHashWrapper_eq ns _ hho, generateHashWrapper_eq ns _ hho, h]
    rw [memcachedGenerateHashWithRedistribution, memcachedGenerateHashWithRedistribution, hh]

abbrev Fits (ns : Namespace) (key : List Byte) : Prop := ns.bytes.length + key.length < maxKey

/-- The tag is hashed.  If there is a namespace, the two fit the copy, and there is no zero byte before
the closing brace. -/
def TagKept (ns : Namespace) (k : TaggedKey) : Prop :=
  ns.bytes = [] ∨ (Fits ns k.bytes ∧ 0 ∉ k.before ++ k.tag)

/-- The tags of both keys are hashed, or neither is and the copies are the same. -/
def SameShard (ns : Namespace) (k₁ k₂ : TaggedKey) : Prop :=
  (TagKept ns k₁ ∧ TagKept ns k₂) ∨
    (¬TagKept ns k₁ ∧ ¬TagKept ns k₂ ∧ (Fits ns k₁.bytes ↔ Fits ns k₂.bytes) ∧
      (Fits ns k₁.bytes → strncpy k₁.bytes = strncpy k₂.bytes))

theorem hashedBytes_of_tagKept (hn : openBrace ∉ ns.bytes) (h : TagKept ns k) :
    hashedBytes ns k.bytes = some k.tag := by
  rw [hashedBytes, getShardKey_copy hn, getShardKey_eq, shardTag_bytes]
  rcases h with hni | ⟨hf, hz⟩
  · simp [hni]
  · have hc : strncpy k.bytes = k.before ++ openBrace :: (k.tag ++ closeBrace :: strncpy k.after) := by
      rw [mem_append, not_or] at hz
      rw [TaggedKey.bytes, strncpy_append hz.1, strncpy_cons, if_neg (by decide), strncpy_append hz.2,
        strncpy_cons, if_neg (by decide)]
    have ht : shardTag (strncpy k.bytes) = some k.tag := by
      rw [hc]
      exact shardTag_bytes ⟨k.before, k.tag, strncpy k.after, k.no_open, k.no_close, k.tag_ne⟩
    rw [if_neg (not_le.2 hf), ht]
    split <;> rfl

theorem hashedBytes_of_not_tagKept (hn : openBrace ∉ ns.bytes) (h : ¬TagKept ns k) :
    hashedBytes ns k.bytes = if Fits ns k.bytes then some
      (strncpy ns.bytes ++ strncpy k.bytes) else none := by
  rw [TagKept, not_or] at h
  rw [hashedBytes, if_pos (length_pos_iff.2 h.1), getShardKey_copy hn]
  by_cases hf : Fits ns k.bytes
  · rw [if_neg (not_le.2 hf), if_pos hf]
    cases ht : shardTag (strncpy k.bytes) with
    | none => rfl
    | some tag =>
      obtain ⟨k', hk', -, hz⟩ := exists_of_shardTag_strncpy ht
      obtain ⟨hb, hr⟩ := append_sep_inj k.no_open k'.no_open hk'
      exact absurd ⟨hf, hb ▸ (append_sep_inj k.no_close k'.no_close hr).1 ▸ hz⟩ h.2
  · rw [if_pos (not_lt.1 hf), if_neg hf]

theorem servedTogether_iff_sameShard (hn : openBrace ∉ ns.bytes) (ht : k₁.tag = k₂.tag) :
    ServedTogether ns k₁.bytes k₂.bytes ↔ SameShard ns k₁ k₂ := by
  -- a copy that is hashed as a whole is longer than the tag
  have hl : ∀ k k' : TaggedKey, k.tag = k'.tag → ¬TagKept ns k' → hashedBytes ns k'.bytes ≠ some k.tag := by
    intro k k' ht hlo he
    rw [hashedBytes_of_not_tagKept hn hlo] at he
    obtain ⟨-, hc⟩ := Option.ite_none_right_eq_some.1 he
    have hle := congrArg length (Option.some.inj hc)
    simp only [length_append, length_strncpy, ht, TaggedKey.bytes, length_cons] at hle
    omega
  rw [servedTogether_iff, SameShard]
  by_cases h₁ : TagKept ns k₁ <;> by_cases h₂ : TagKept ns k₂
  · simp [hashedBytes_of_tagKept hn, h₁, h₂, ht]
  · simpa [hashedBytes_of_tagKept hn h₁, h₁, h₂] using (hl k₁ k₂ ht h₂).symm
  · simpa [hashedBytes_of_tagKept hn h₂, h₁, h₂] using hl k₂ k₁ ht.symm h₁
  · rw [hashedBytes_of_not_tagKept hn h₁, hashedBytes_of_not_tagKept hn h₂]
    by_cases hf₁ : Fits ns k₁.bytes <;> by_cases hf₂ : Fits ns k₂.bytes <;> simp [h₁, h₂, hf₁]

/-- In every ring, two keys with one tag go to one server, if and only if the tags of both are hashed or the
same is hashed in their places.  A key without a tag is hashed as a whole, as without shard keys. -/
theorem shard_key_iff (hns : openBrace ∉ ns.bytes) (htag : k₁.tag = k₂.tag) (hkey : Untagged key) :
    (ServedTogether ns k₁.bytes k₂.bytes ↔ SameShard ns k₁ k₂) ∧
      ∀ digest mc, generateHashWrapper ⟨ns, true, digest⟩ mc key = generateHashWrapper
        ⟨ns, false, digest⟩ mc key :=
  ⟨servedTogether_iff_sameShard hns htag, generateHashWrapper_of_untagged hns hkey⟩

/-- A key that is a tag `t` with some bytes behind it. -/
def behindTag (after : List Byte) : TaggedKey :=
  ⟨[], bytesOf (lit ['t']), after, by decide, by decide, by decide⟩

/-- The keys of a tag and of the tag with a byte behind it, in the namespace `a`, go to one server.  The
key `k` has no tag. -/
theorem shard_key_in_namespace :
    ServedTogether inNamespace.ns (behindTag []).bytes (behindTag (bytesOf (lit ['a']))).bytes ∧
      ∀ digest mc, generateHashWrapper ⟨inNamespace.ns, true, digest⟩ mc (bytesOf (lit ['k'])) =
        generateHashWrapper ⟨inNamespace.ns, false, digest⟩ mc (bytesOf (lit ['k'])) := by
  have hu : Untagged (bytesOf (lit ['k'])) := fun k hk => by
    have ho : openBrace ∈ k.bytes := by simp [TaggedKey.bytes]
    rw [← hk] at ho
    exact absurd ho (by decide)
  have hk := @shard_key_iff inNamespace.ns _ (behindTag []) (behindTag (bytesOf (lit ['a'])))
    (by decide) rfl hu
  exact ⟨hk.1.2 (.inl ⟨.inr (by decide), .inr (by decide)⟩), hk.2⟩

/-- Beside the namespace `a` there is no room for a key of 4000 bytes. -/
theorem shard_key_too_long : ∃ after, keyTest inNamespace.toClient (behindTag []).bytes = true ∧
    keyTest inNamespace.toClient (behindTag after).bytes = true ∧
    ¬ServedTogether inNamespace.ns (behindTag []).bytes (behindTag after).bytes := by
  obtain ⟨after, hl, ha⟩ : ∃ after : List Byte, after.length = 3997 ∧ ∀ b ∈ after, b = 97 :=
    ⟨replicate 3997 97, length_replicate, fun _ => eq_of_mem_replicate⟩
  have hby : (behindTag after).bytes = bytesOf (lit ['\x7b', 't', '\x7d']) ++ after := rfl
  have hn : openBrace ∉ inNamespace.ns.bytes := by decide
  have hs : TagKept inNamespace.ns (behindTag []) := .inr (by decide)
  have hlo : ¬Fits inNamespace.ns (behindTag after).bytes := by
    rw [Fits, hby, length_append, hl]
    decide
  refine ⟨after, by decide, ?_, fun h => ?_⟩
  · have ho : after.all (fun b => 33 ≤ b.1 && b.1 ≤ 126) = true :=
      all_eq_true.2 fun b hb => by rw [ha b hb]; decide
    rw [keyTest, hby, length_append, hl, all_append, ho]
    decide
  · have hs' := @servedTogether_iff_sameShard inNamespace.ns (behindTag []) (behindTag after) hn rfl
    rcases hs'.1 h with ⟨-, hni | hf⟩ | ⟨hlos, -⟩
    · cases hni
    · exact hlo hf.1
    · exact hlos hs

end ArcusClient.Keys
