import ArcusClient.Lib.Memory
import ArcusClient.Pool.ProxyString

/-!
# The room for the published list

A proxy writes the names to `proxy.data->serverlist`, an array of fixed size, and does not look at the
size.  Here the memory from the start of the array on has no end, and the places that are written are
recorded.  Each name takes one byte more than its length (`proxy_list_within_iff`).
-/

namespace ArcusClient

open CString Strtok List

/-- The memory from `proxy.data->serverlist` on, and the places that were written. -/
structure SharedList where
  cell : Nat → Fin 256
  written : List Nat

namespace SharedList

def store (s : SharedList) (p : Nat) (bytes : List (Fin 256)) : SharedList :=
  ⟨Memory.store s.cell p bytes, s.written ++ List.range' p bytes.length⟩

/-- The loop of `do_arcus_proxy_update_cachelist`. -/
def writeNames : SharedList → (writeLength : Nat) → List CStr → SharedList × Nat
  | s, writeLength, [] => (s, writeLength)
  | s, writeLength, name :: rest =>
    let s := s.store writeLength (bytesOf name ++ [0])
    let writeLength := writeLength + name.length
    (s.store writeLength [(ofChar ',').1]).writeNames (writeLength + 1) rest

/-- What `do_arcus_proxy_update_cachelist` writes to the list. -/
def publish (memory : Nat → Fin 256) (strings : List CStr) : SharedList :=
  if strings.isEmpty then store ⟨memory, []⟩ 0 [0]
  else
    let (s, writeLength) := writeNames ⟨memory, []⟩ 0 strings
    s.store (writeLength - 1) [0]

/-! ## The places -/

/-- The bytes that the names take, with a comma or the terminator behind each. -/
def taken (strings : List CStr) : Nat := (strings.map fun name => name.length + 1).sum

@[simp] theorem taken_cons (name : CStr) (rest : List CStr) :
    taken (name :: rest) = name.length + 1 + taken rest := by
  rw [taken, taken, map_cons, sum_cons]

theorem mem_store {s : SharedList} :
    i ∈ (s.store p bytes).written ↔ i ∈ s.written ∨ (p ≤ i ∧ i < p + bytes.length) := by
  rw [store, mem_append, mem_range'_1]

theorem writeNames_length : ∀ (strings : List CStr) (s : SharedList) (w : Nat),
    (s.writeNames w strings).2 = w + taken strings
  | [], s, w => rfl
  | name :: rest, s, w => by
    rw [writeNames, writeNames_length rest, taken_cons]
    omega

theorem mem_writeNames {i : Nat} : ∀ (strings : List CStr) (s : SharedList) (w : Nat),
    i ∈ (s.writeNames w strings).1.written ↔ i ∈ s.written ∨ (w ≤ i ∧ i < w + taken strings)
  | [], s, w => by
    have he : ¬ (w ≤ i ∧ i < w + taken []) := by
      rw [taken, map_nil, sum_nil]
      omega
    rw [writeNames, or_iff_left he]
  | name :: rest, s, w => by
    rw [writeNames, mem_writeNames rest, mem_store, mem_store, taken_cons]
    simp only [length_append, length_map, bytesOf, length_singleton, or_assoc]
    exact or_congr_right (by omega)

theorem mem_publish {memory : Nat → Fin 256} {strings : List CStr} :
    i ∈ (publish memory strings).written ↔ i < max 1 (taken strings) := by
  cases strings with
  | nil =>
    change i ∈ [0] ↔ _
    simp [taken]
  | cons name rest =>
    have hp : 1 ≤ taken (name :: rest) := by
      rw [taken_cons]
      omega
    rw [publish, if_neg (by simp)]
    rw [mem_store, mem_writeNames, writeNames_length, or_iff_right not_mem_nil, length_singleton]
    omega

/-! ## The contents -/

section Contents

variable {memory : Nat → Fin 256}

/-- The memory has the bytes of the list, and behind them what it had before. -/
def Holds (memory : Nat → Fin 256) (s : SharedList) (l : List (Fin 256)) : Prop :=
  ∀ i, s.cell i = l[i]?.getD (memory i)

theorem Holds.store (h : Holds memory s l) (hp : p ≤ l.length) (bytes : List (Fin 256)) :
    Holds memory (s.store p bytes) (storeAt l p bytes) := by
  intro i
  have ht : (l.take p).length = p := length_take_of_le hp
  change Memory.store s.cell p bytes i = _
  rw [storeAt, Memory.store]
  by_cases hi : p ≤ i
  · rw [if_pos hi, getElem?_append_right (ht.trans_le hi), ht]
    by_cases hl : i - p < bytes.length
    · rw [getElem?_append_left hl, getElem?_eq_getElem hl]
      rfl
    · have hb : p + bytes.length + (i - p - bytes.length) = i := by omega
      rw [getElem?_append_right (not_lt.1 hl), getElem?_drop, hb, getElem?_eq_none (not_lt.1 hl)]
      exact h i
  · rw [if_neg hi, getElem?_append_left (by omega), getElem?_take_of_lt (by omega)]
    exact h i

theorem Holds.set (h : Holds memory s l)
    (hp : p < l.length) (b : Fin 256) : Holds memory (s.store p [b]) (l.set p b) := by
  have hs : storeAt l p [b] = l.set p b := by
    rw [set_eq_take_append_cons_drop, if_pos hp]
    rfl
  rw [← hs]
  exact h.store hp.le [b]

theorem Holds.writeNames : ∀ (strings : List CStr) {s : SharedList} {l : List (Fin 256)} {w : Nat},
    Holds memory s l → w ≤ l.length →
    Holds memory (s.writeNames w strings).1 (ArcusClient.writeNames l w strings).1 ∧
      (s.writeNames w strings).2 = (ArcusClient.writeNames l w strings).2 ∧
      (s.writeNames w strings).2 ≤ (ArcusClient.writeNames l w strings).1.length
  | [], s, l, w, h, hw => ⟨h, rfl, hw⟩
  | name :: rest, s, l, w, h, hw => by
    have hl : w + name.length < (strcpyAt l w name).length := by
      rw [strcpyAt, storeAt]
      simp only [length_append, length_take, length_map, bytesOf, length_singleton]
      omega
    have hs := (h.store hw (bytesOf name ++ [0])).set hl (ofChar ',').1
    exact Holds.writeNames rest hs (by rw [length_set]; exact hl)

/-- The memory is as `doArcusProxyUpdateCachelist` has it. -/
theorem publish_holds (data : ProxyData) (strings : List CStr)
    (hr : data.serverlist.length = serverlistRoom)
    (hm : ∀ i < serverlistRoom, data.serverlist[i]? = some (memory i)) :
    Holds memory (publish memory strings)
      (doArcusProxyUpdateCachelist data strings).serverlist := by
  have hs : Holds memory ⟨memory, []⟩ data.serverlist := by
    intro i
    by_cases hi : i < serverlistRoom
    · rw [hm i hi]
      rfl
    · rw [getElem?_eq_none (hr.trans_le (not_lt.1 hi))]
      rfl
  rw [publish, doArcusProxyUpdateCachelist]
  split
  · exact hs.set (hr.symm ▸ by decide) 0
  · obtain ⟨hh, hw, hl⟩ := hs.writeNames strings (Nat.zero_le _)
    cases strings with
    | nil => contradiction
    | cons name rest =>
      have hp := writeNames_length (name :: rest) ⟨memory, []⟩ 0
      rw [taken_cons] at hp
      dsimp only
      rw [← hw]
      exact hh.set (by omega) 0

end Contents

/-! ## The bound -/

theorem length_serverlistString : ∀ {strings : List CStr}, strings ≠ [] →
    (serverlistString strings).length + 1 = taken strings
  | [name], _ => by simp [serverlistString, taken]
  | name :: next :: rest, _ => by
    have ih := length_serverlistString (cons_ne_nil next rest)
    rw [taken_cons, ← ih, serverlistString, serverlistString, intercalate_cons_cons]
    simp only [length_append, length_singleton]
    omega

/-- The list stands at the beginning of the memory and ends within the array. -/
def Terminated (s : SharedList) (strings : List CStr) : Prop :=
  (serverlistString strings).length < serverlistRoom ∧
    Memory.slice s.cell 0 (serverlistString strings).length = bytesOf (serverlistString strings) ∧
    s.cell (serverlistString strings).length = 0

theorem publish_terminated (memory : Nat → Fin 256)
    (h : taken strings ≤ serverlistRoom) : Terminated (publish memory strings) strings := by
  have hf : (serverlistString strings).length + 1 ≤ serverlistRoom := by
    cases strings with
    | nil => decide
    | cons name rest =>
      rw [length_serverlistString (cons_ne_nil name rest)]
      exact h
  obtain ⟨data, hl, hm⟩ : ∃ data : ProxyData, data.serverlist.length = serverlistRoom ∧
      ∀ i < serverlistRoom, data.serverlist[i]? = some (memory i) :=
    ⟨⟨0, 0, Memory.slice memory 0 serverlistRoom⟩, by simp only [Memory.length_slice],
      fun i hi => by simp [Memory.slice, hi]⟩
  obtain ⟨rest, hli, -, -⟩ := publish_spec (hf.trans_eq hl.symm)
  have hh := publish_holds data strings hl hm
  rw [hli] at hh
  refine ⟨hf, ?_, ?_⟩
  · refine ext_getElem (by simp) fun i hi hi' => ?_
    have hc := hh i
    rw [getElem?_append_left hi', getElem?_eq_getElem hi'] at hc
    simpa [Memory.slice] using hc
  · have hc := hh (serverlistString strings).length
    simpa using hc

/-- The proxy writes within the array, and the list ends there, just if the names fit with a
byte more for each. -/
theorem proxy_list_within_iff (memory : Nat → Fin 256) (strings : List CStr) :
    ((∀ i ∈ (publish memory strings).written, i < serverlistRoom) ∧
      Terminated (publish memory strings) strings) ↔ taken strings ≤ serverlistRoom := by
  constructor
  · rintro ⟨hw, -⟩
    by_contra hlarge
    exact lt_irrefl _ (hw serverlistRoom (mem_publish.2 (lt_max_of_lt_right (not_le.1 hlarge))))
  · intro h
    refine ⟨fun i hi => ?_, publish_terminated memory h⟩
    exact (mem_publish.1 hi).trans_le (max_le (by decide) h)

/-- One name as long as the array is too long, as its terminator comes behind the array. -/
theorem proxy_list_overrun :
    serverlistRoom ∈ (publish (fun _ => 0) [List.replicate serverlistRoom (ofChar 'a')]).written := by
  rw [mem_publish, taken_cons, length_replicate]
  omega

end SharedList

end ArcusClient
