import ArcusClient.Pool.Conservation
import ArcusClient.Hosts.Continuum
import ArcusClient.Lib.LinkedList
import ArcusClient.Lib.Outcome

/-!
# The list of released members in memory

The members that were given back are linked by their `mc_next`, from `used_mc_head` to `used_mc_tail`,
and their backup from `used_bk_head` (`Links`).  The pointers go along with the pool
(`LinkedPool.step`), whose lists are what the heads lead to.

`mc_list_behavior_set` frees the members whose behavior cannot be set.  Behind a member that it keeps it
reads the next pointer of the one it has freed, and it does not move the tail.  The list is well formed
as long as neither does harm (`used_list_well_formed`, `used_list_tail_freed`).
-/

namespace ArcusClient

open LinkedList Outcome PoolSt

/-! ## The pointers -/

structure Links where
  /-- `used_mc_head`. -/
  head : Option Nat
  /-- `used_mc_tail`. -/
  tail : Option Nat
  /-- `used_bk_head`. -/
  bkHead : Option Nat
  /-- `mc_next` of each member. -/
  next : Nat → Option Nat

namespace Links

def empty : Links := ⟨none, none, none, fun _ => none⟩

/-- `mc_list_get`. -/
def mcListGet (l : Links) : Links :=
  match l.bkHead with
  | some mc => { l with bkHead := l.next mc }
  | none =>
    match l.head with
    | some mc => { l with head := l.next mc, tail := if l.next mc = none then none else l.tail }
    | none => l

/-- `mc_list_add`. -/
def mcListAdd (l : Links) (head : Bool) (mc : Nat) : Links :=
  if head then
    { l with
      next := Function.update l.next mc l.head
      head := some mc
      tail := if l.tail = none then some mc else l.tail }
  else
    let next := Function.update l.next mc none
    match l.tail with
    | some tail => { l with next := Function.update next tail (some mc), tail := some mc }
    | none => { l with next := next, head := some mc, tail := some mc }

/-- The loop of `mc_list_remove_all`, with as many rounds as there can be members. -/
def removeLoop : (rounds : Nat) → Links → Except Fault Links
  | rounds, l =>
    match l.head with
    | none => .ok { l with tail := none }
    | some mc =>
      match rounds with
      | 0 => .error .endless
      | rounds + 1 => removeLoop rounds { l with head := l.next mc }

/-- The loop of `mc_list_behavior_set`.  Memory that was freed can be read if it is `intact`. -/
def behaviorSetLoop (set : Nat → Bool) (intact : Bool) :
    (rounds : Nat) → (prev curr : Option Nat) → Links → Except Fault Links
  | _, _, none, l => .ok l
  | 0, _, some _, _ => .error .endless
  | rounds + 1, prev, some curr, l =>
    if set curr then behaviorSetLoop set intact rounds (some curr) (l.next curr) l
    else
      match prev with
      | some prev =>
        let l := { l with next := Function.update l.next prev (l.next curr) }
        if intact then behaviorSetLoop set intact rounds (some prev) (l.next curr) l else .error .freed
      | none =>
        let head := l.next curr
        behaviorSetLoop set intact rounds none head
          { l with head := head, tail := if head = none then none else l.tail }

def moveToBackup (l : Links) : Links := { l with bkHead := l.head, head := none, tail := none }

/-- The head of the loop of `mc_list_update_cachelist`. -/
def nextOfList (l : Links) : Links :=
  match l.bkHead with
  | some mc => { l with bkHead := l.next mc }
  | none => l

end Links

/-! ## The pool with its pointers -/

structure LinkedPool where
  pool : PoolSt
  links : Links

/-- The events of a pool.  `set` says which members' behavior can be set. -/
inductive LinkEvent where
  | behaviorSet (master : Bool) (set : Nat → Bool) (clone grow : Nat → Bool) (intact : Bool)
  | other (e : Event)

def LinkEvent.event : LinkEvent → Option Event
  | .behaviorSet master set clone grow _ => some (.behaviorSet master (fun mc => set mc.id) clone grow)
  | .other (.behaviorSet ..) => none
  | .other e => some e

/-- The member that `release` puts into the list: the one that is given, or a clone. -/
def released (s : PoolSt) (mc : Member) (clone : Bool) : Nat :=
  if mc.version ≠ s.version ∧ clone = true then s.nextId else mc.id

def LinkEvent.edit (s : LinkedPool) : LinkEvent → Except Fault Links
  | .behaviorSet master set _ _ intact =>
    if master then s.links.behaviorSetLoop set intact s.pool.live.card none s.links.head else .ok s.links
  | .other (.fetch ..) => .ok s.links.mcListGet
  | .other (.release mc clone _) => .ok (s.links.mcListAdd true (released s.pool mc clone))
  | .other (.repopulate ..) => s.links.removeLoop s.pool.live.card
  | .other (.updateCachelist init changed _ _) =>
    if init then s.links.removeLoop s.pool.live.card
    else if changed then .ok s.links.moveToBackup.nextOfList
    else .ok s.links
  | .other (.putBack _) =>
    match s.pool.masterLock with
    | .updatingList mc => .ok (s.links.mcListAdd false mc.id).nextOfList
    | _ => .ok s.links
  | .other _ => .ok s.links

def LinkedPool.step (s : LinkedPool) (e : LinkEvent) : Option (Except Fault LinkedPool) :=
  (e.event.bind s.pool.next).map fun pool => (e.edit s).map fun links => ⟨pool, links⟩

/-- The members that are freed are the first ones of the list. -/
def FreesFirst (set : Nat → Bool) (l : List Nat) : Prop := l.Pairwise fun a b => set a = true → set b = true

theorem FreesFirst.of_cons {set : Nat → Bool} (h : FreesFirst set (a :: l)) :
    (∀ b ∈ l, set a = true → set b = true) ∧ FreesFirst set l := List.pairwise_cons.1 h

/-- The last member of the list is freed only with all others, and no freed memory is read
that is not intact. -/
def LinkEvent.Harmless (s : LinkedPool) : LinkEvent → Prop
  | .behaviorSet _ set _ _ intact =>
    TailKept (fun mc => set mc.id) s.pool.usedMc ∧ (intact = true ∨ FreesFirst set (ids s.pool.usedMc))
  | .other _ => True

/-! ## What the pointers lead to -/

structure Leads (l : Links) (used backup : List Nat) : Prop where
  list : Chain l.next l.head used
  tail : l.tail = used.getLast?
  backup : Chain l.next l.bkHead backup

namespace Leads

variable {l : Links} {used backup : List Nat} {mc : Nat}

theorem getBackup (h : Leads l used (mc :: backup)) : Leads l.mcListGet used backup := by
  rw [Links.mcListGet, h.backup.1]
  exact ⟨h.list, h.tail, h.backup.2⟩

theorem getList (h : Leads l (mc :: used) []) : Leads l.mcListGet used [] := by
  have hn : l.bkHead = none := h.backup
  simp only [Links.mcListGet, hn, h.list.1]
  refine ⟨h.list.2, ?_, rfl⟩
  rw [h.list.2.head, h.tail]
  cases used with
  | nil => rfl
  | cons a used => simp

theorem getNothing (h : Leads l [] []) : Leads l.mcListGet [] [] := by
  have hn : l.bkHead = none := h.backup
  have hh : l.head = none := h.list
  simp only [Links.mcListGet, hn, hh]
  exact h

theorem addHead (h : Leads l used backup) (hu : mc ∉ used) (hb : mc ∉ backup) :
    Leads (l.mcListAdd true mc) (mc :: used) backup := by
  refine ⟨⟨rfl, ?_⟩, ?_, h.backup.update_of_notMem hb⟩
  · change Chain _ (Function.update l.next mc l.head mc) used
    rw [Function.update_self]
    exact h.list.update_of_notMem hu
  · change (if l.tail = none then some mc else l.tail) = _
    rw [h.tail]
    cases used with
    | nil => rfl
    | cons a used => simp

theorem addTail (h : Leads l used backup) (hu : mc ∉ used) (hb : mc ∉ backup)
    (hd : ∀ a ∈ used, a ∉ backup) (hn : used.Nodup) :
    Leads (l.mcListAdd false mc) (used ++ [mc]) backup := by
  have ht := h.tail
  rcases List.eq_nil_or_concat used with rfl | ⟨front, last, rfl⟩
  · simp only [Links.mcListAdd, ht]
    refine ⟨⟨rfl, ?_⟩, rfl, h.backup.update_of_notMem hb⟩
    exact Function.update_self _ _ _
  · rw [List.concat_eq_append] at *
    rw [List.getLast?_concat] at ht
    simp only [Links.mcListAdd, ht]
    have hl : last ∉ front := fun hm => (List.nodup_append.1 hn).2.2 last hm last (by simp) rfl
    have hne : last ≠ mc := fun he => hu (by simp [he])
    refine ⟨?_, by simp, (h.backup.update_of_notMem hb).update_of_notMem (hd last (by simp))⟩
    rw [List.append_assoc]
    have hmc : Chain (Function.update l.next mc none) (some mc) [mc] := ⟨rfl, Function.update_self _ _ _⟩
    exact (h.list.update_of_notMem hu).splice hmc hl (List.mem_singleton.not.2 hne)

theorem moveToBackup (h : Leads l used []) : Leads l.moveToBackup [] used :=
  ⟨rfl, rfl, h.list⟩

theorem nextOfList (h : Leads l used backup) : Leads l.nextOfList used backup.tail := by
  rw [Links.nextOfList]
  cases backup with
  | nil =>
    have hn : l.bkHead = none := h.backup
    rw [hn]
    exact h
  | cons mc backup =>
    rw [h.backup.1]
    exact ⟨h.list, h.tail, h.backup.2⟩

theorem removeLoop (h : Chain l.next l.head used) (hb : Chain l.next l.bkHead backup)
    (hr : used.length ≤ rounds) :
    Ends (fun _ => False) (fun l' => Leads l' [] backup) (l.removeLoop rounds) := by
  induction used generalizing l rounds with
  | nil =>
    have hh : l.head = none := h
    rw [Links.removeLoop, hh]
    exact ⟨rfl, rfl, hb⟩
  | cons mc used ih =>
    obtain ⟨rounds, rfl⟩ : ∃ n, rounds = n + 1 := Nat.exists_eq_add_one.2 (Nat.lt_of_lt_of_le (Nat.succ_pos _) hr)
    rw [Links.removeLoop, h.1]
    exact ih h.2 hb (Nat.le_of_succ_le_succ hr)

/-- The loop keeps the members that can be set.  `kept` are those it has passed. -/
theorem behaviorSetLoop {set : Nat → Bool} (kept : List Nat) (h : Leads l (kept ++ ms) backup)
    (hc : Chain l.next curr ms)
    (hn : (kept ++ ms).Nodup) (hd : ∀ a ∈ kept ++ ms, a ∉ backup)
    (hl : (ms.filter set = [] ∧ (kept = [] ∨ ms = [])) ∨ ∃ a, ms.getLast? = some a ∧ set a = true)
    (hs : intact = true ∨ FreesFirst set ms ∧ (kept = [] ∨ ∀ a ∈ ms, set a = true))
    (hr : ms.length ≤ rounds) :
    Ends (fun _ => False) (fun l' => Leads l' (kept ++ ms.filter set) backup)
      (l.behaviorSetLoop set intact rounds kept.getLast? curr) := by
  induction ms generalizing l kept rounds curr with
  | nil =>
    rw [hc, Links.behaviorSetLoop]
    exact h
  | cons c ms ih =>
    obtain ⟨rounds, rfl⟩ : ∃ n, rounds = n + 1 := Nat.exists_eq_add_one.2 (Nat.lt_of_lt_of_le (Nat.succ_pos _) hr)
    have hr := Nat.le_of_succ_le_succ hr
    obtain ⟨rfl, hc⟩ := hc
    rw [Links.behaviorSetLoop.eq_def]
    simp only
    cases hse : set c with
    | true =>
      have hap : kept ++ c :: ms = (kept ++ [c]) ++ ms := by rw [List.append_assoc]; rfl
      rw [hap] at h hn hd
      rw [List.filter_cons_of_pos hse, ← List.singleton_append, ← List.append_assoc]
      have hlo := ih _ h hc hn hd ?_ ?_ hr
      · rwa [List.getLast?_concat] at hlo
      · rcases hl with ⟨hnon, -⟩ | ⟨a, ha, hset⟩
        · rw [List.filter_cons_of_pos hse] at hnon
          cases hnon
        · cases ms with
          | nil => exact .inl ⟨rfl, .inr rfl⟩
          | cons b ms => exact .inr ⟨a, by simpa using ha, hset⟩
      · exact hs.imp id fun hf =>
          ⟨hf.1.of_cons.2, .inr fun a ha => hf.1.of_cons.1 a ha hse⟩
    | false =>
      have hfa : ¬set c = true := by rw [hse]; exact Bool.false_ne_true
      rw [List.filter_cons_of_neg hfa]
      have hl' : (ms.filter set = [] ∧ kept = []) ∨ ∃ a, ms.getLast? = some a ∧ set a = true := by
        rcases hl with ⟨hnon, hk | hm⟩ | ⟨a, ha, hset⟩
        · exact .inl ⟨by rwa [List.filter_cons_of_neg hfa] at hnon, hk⟩
        · cases hm
        · cases ms with
          | nil =>
            cases ha
            exact absurd hset hfa
          | cons b ms => exact .inr ⟨a, by simpa using ha, hset⟩
      rcases List.eq_nil_or_concat kept with rfl | ⟨front, prev, rfl⟩
      · -- the first member of the list goes
        refine ih [] ⟨hc, ?_, h.backup⟩ hc (List.nodup_cons.1 hn).2
          (fun a ha => hd a (List.mem_cons_of_mem c ha)) (hl'.imp (fun h => ⟨h.1, .inl rfl⟩) id)
          (hs.imp id fun hf => ⟨hf.1.of_cons.2, .inl rfl⟩) hr
        rw [hc.head, h.tail]
        cases ms with
        | nil => rfl
        | cons b ms => simp
      · -- a member behind a kept one goes
        rw [List.concat_eq_append] at *
        have hin : intact = true := by
          rcases hs with hin | ⟨-, hni | hal⟩
          · exact hin
          · simp at hni
          · exact absurd (hal c List.mem_cons_self) hfa
        have hap : (front ++ [prev]) ++ c :: ms = front ++ prev :: c :: ms := by simp
        have hsp := List.nodup_append.1 (hap ▸ hn)
        have hp : prev ∉ c :: ms := (List.nodup_cons.1 hsp.2.1).1
        have hfr : prev ∉ front := fun hme => hsp.2.2 prev hme prev List.mem_cons_self rfl
        have hne : c ≠ prev := fun he => hp (he ▸ List.mem_cons_self)
        have hm : prev ∉ ms := fun hme => hp (List.mem_cons_of_mem c hme)
        simp only [List.getLast?_concat, hin]
        rw [Function.update_of_ne hne]
        have hlo := ih (l := { l with next := Function.update l.next prev (l.next c) })
          (front ++ [prev]) ⟨?_, ?_, ?_⟩ (hc.update_of_notMem hm) ?_ ?_ ?_ (.inl hin) hr
        · rwa [List.getLast?_concat, hin] at hlo
        · rw [List.append_assoc]
          exact (hap ▸ h.list).splice hc hfr hm
        · refine h.tail.trans ?_
          rcases hl' with ⟨-, hni⟩ | ⟨a, ha, -⟩
          · simp at hni
          · cases ms with
            | nil => cases ha
            | cons b ms => simp
        · exact h.backup.update_of_notMem (hd prev (by simp))
        · exact hn.sublist (List.Sublist.append_left (List.sublist_cons_self c ms) _)
        · exact fun a ha => hd a ((List.Sublist.append_left (List.sublist_cons_self c ms) _).subset ha)
        · exact hl'.imp (fun hni => absurd hni.2 (by simp)) id

end Leads

/-! ## The lists of the pool -/

namespace PoolSt

variable {s : PoolSt} {hand : List Member} {lock : MasterLock} {mc : Member}

theorem Takes.lists (ht : Takes s updated r s') :
    s'.usedMc = (if s.usedBk = [] then s.usedMc.tail else s.usedMc) ∧ s'.usedBk = s.usedBk.tail := by
  cases ht with
  | usedBk hb => simp [hb]
  | usedMc hb hu | bkPool hb hu _ | mcPool hb hu _ | nothing hb hu _ => simp [hb, hu]

theorem Fetches.lists (hf : Fetches s updated result s') :
    s'.usedMc = (if s.usedBk = [] then s.usedMc.tail else s.usedMc) ∧ s'.usedBk = s.usedBk.tail := by
  cases hf with
  | taken ht => exact ht.lists
  | grown _ _ _ ht => exact ht.lists
  | refused _ hb hu => simp [hb, hu]

theorem nextOfList_lists (s : PoolSt) :
    s.nextOfList.usedMc = s.usedMc ∧ s.nextOfList.usedBk = s.usedBk.tail := by
  fun_cases nextOfList s with
  | case1 mc rest hb => exact ⟨rfl, by rw [hb]; rfl⟩
  | case2 hb =>
    rw [hb]
    fun_cases nextOfPool s with
    | case1 | case2 => exact ⟨rfl, hb⟩

theorem release_lists (s : PoolSt) (mc : Member) (clone updated : Bool) :
    ids (s.release mc clone updated).usedMc = released s mc clone :: ids s.usedMc ∧
      (s.release mc clone updated).usedBk = s.usedBk := by
  by_cases hv : mc.version = s.version
  · have hs : released s mc clone = mc.id := if_neg fun h => h.1 hv
    rw [release, if_neg (not_not.2 hv), hs]
    split <;> simp [mcListAddHead]
  · rw [release, if_pos hv]
    cases clone with
    | true =>
      have hc : released s mc true = s.nextId := if_pos ⟨hv, rfl⟩
      rw [hc]
      exact ⟨rfl, rfl⟩
    | false =>
      have hs : released s mc false = mc.id := if_neg fun h => Bool.false_ne_true h.2
      rw [hs]
      exact ⟨rfl, rfl⟩

theorem Counted.hand_notMem (h : Counted (mc :: hand) lock s) :
    mc.id ∉ ids s.usedMc ∧ mc.id ∉ ids s.usedBk := by
  have hn : mc.id ∉ ids (hand ++ s.members) := (List.nodup_cons.1 h.ledger.nodup).1
  simp only [members, ids_append, List.mem_append, not_or] at hn
  exact ⟨hn.2.1.1.1.1, hn.2.1.1.1.2⟩

theorem Counted.lists_live (h : Counted hand lock s) {id : Nat}
    (hid : id ∈ ids s.usedMc ∨ id ∈ ids s.usedBk) :
    id ∈ s.live := by
  refine (h.ledger.mem_iff id).1 ?_
  simp only [members, ids_append, List.mem_append]
  tauto

theorem Counted.lists_nodup (h : Counted hand lock s) :
    (ids s.usedMc).Nodup ∧ ∀ id ∈ ids s.usedMc, id ∉ ids s.usedBk := by
  have hn := h.ledger.nodup
  simp only [members, ids_append, List.append_assoc] at hn
  obtain ⟨hu, -, hd⟩ := List.nodup_append.1 (List.nodup_append.1 hn).2.1
  exact ⟨hu, fun id hid hb => hd id hid id (List.mem_append_left _ hb) rfl⟩

theorem Counted.usedMc_le (h : Counted hand lock s) : (ids s.usedMc).length ≤ s.live.card := by
  rw [h.ledger.card, ids, List.length_map, ids, List.length_map]
  exact (usedMc_sublist s).length_le

end PoolSt

/-! ## Runs -/

structure Linked (s : LinkedPool) : Prop where
  inv : s.pool.Inv
  leads : Leads s.links (ids s.pool.usedMc) (ids s.pool.usedBk)

variable {s : LinkedPool} {e : LinkEvent}

theorem LinkEvent.Harmless.keepsTail {event : Event} (he : e.Harmless s)
    (hev : e.event = some event) : event.KeepsTail s.pool := by
  cases e with
  | behaviorSet master set clone grow intact =>
    cases hev
    exact fun _ => he.1
  | other e =>
    cases e with
    | behaviorSet master set clone grow => cases hev
    | _ =>
      cases hev
      trivial

theorem removeLoop_repopulated (h : Linked s) (hl : s.pool.masterLock = .entered)
    (clone grow : Nat → Bool) :
    Ends (fun _ => False) (fun l => Leads l (ids (s.pool.repopulate clone grow).usedMc)
      (ids (s.pool.repopulate clone grow).usedBk)) (s.links.removeLoop s.pool.live.card) := by
  have hin := h.inv
  rw [PoolSt.Inv, hl] at hin
  obtain ⟨hr, hu⟩ := repopulate_owned clone grow hin
  have hlo := Leads.removeLoop h.leads.list h.leads.backup (Owned.toCounted h.inv).usedMc_le
  rw [hin.backups.1] at hlo
  rw [hu, hr.backups.1]
  exact hlo

theorem Linked.edit (h : Linked s) (he : e.Harmless s)
    (hev : e.event = some event) (hn : s.pool.next event = some pool) :
    Ends (fun _ => False) (fun l => Leads l (ids pool.usedMc) (ids pool.usedBk)) (e.edit s) := by
  have hi' : pool.Inv := next_inv h.inv (he.keepsTail hev) hn
  have hl := h.leads
  have hin := h.inv
  have hc := Owned.toCounted hin
  cases e with
  | behaviorSet master set clone grow intact =>
    cases hev
    cases happens_of_next hn with
    | behaviorSet hlo =>
      rw [PoolSt.Inv, hlo] at hin
      cases master with
      | false => exact hl
      | true =>
        have hb : s.pool.usedBk = [] := hin.backups.1
        have hb' : (s.pool.behaviorSet true (fun mc => set mc.id) clone grow).usedBk = [] := hi'.backups.1
        have hf : (ids s.pool.usedMc).filter set = ids (s.pool.usedMc.filter fun mc => set mc.id) :=
          List.filter_map
        rw [(behaviorSet_inv he.1 clone grow hin).2, hb', ← hf]
        rw [hb] at hl
        refine Leads.behaviorSetLoop [] hl hl.list hc.lists_nodup.1
          (fun _ _ => List.not_mem_nil) ?_ (he.2.imp id fun hfir => ⟨hfir, .inl rfl⟩) hc.usedMc_le
        rcases he.1 with hno | ⟨mc, hla, hs⟩
        · exact .inl ⟨by rw [hf, hno]; rfl, .inl rfl⟩
        · exact .inr ⟨mc.id, by rw [ids, List.getLast?_map, hla]; rfl, hs⟩
  | other e =>
    cases e with
    | behaviorSet master set clone grow => cases hev
    | fetch wait clone updated =>
      cases hev
      have hli : pool.usedMc = (if s.pool.usedBk = [] then s.pool.usedMc.tail else s.pool.usedMc) ∧
          pool.usedBk = s.pool.usedBk.tail := by
        cases happens_of_next hn with
        | fetched hf => exact hf.lists
        | notFetched hb hu => simp [hb, hu]
      rw [hli.1, hli.2]
      cases hb : s.pool.usedBk with
      | cons b rest =>
        rw [hb] at hl
        exact hl.getBackup
      | nil =>
        rw [hb] at hl
        cases hm : s.pool.usedMc with
        | cons m rest =>
          rw [hm] at hl
          exact hl.getList
        | nil =>
          rw [hm] at hl
          exact hl.getNothing
    | release mc clone updated =>
      cases hev
      cases happens_of_next hn with
      | release hm =>
        obtain ⟨hu, hb⟩ := release_lists { s.pool with fetched := s.pool.fetched.erase mc } mc clone updated
        have hnew : released s.pool mc clone ∉ ids s.pool.usedMc ∧ released s.pool mc clone ∉ ids s.pool.usedBk := by
          rw [released]
          split
          · exact ⟨fun hid => hc.notMem_nextId (hc.lists_live (.inl hid)),
              fun hid => hc.notMem_nextId (hc.lists_live (.inr hid))⟩
          · exact (Owned.takeFetched hin hm).toCounted.hand_notMem
        rw [hu, hb]
        exact hl.addHead hnew.1 hnew.2
    | updateMember | lockMaster | unlockMaster =>
      cases hev
      cases happens_of_next hn
      exact hl
    | repopulate clone grow =>
      cases hev
      cases happens_of_next hn with
      | repopulate hlo => exact removeLoop_repopulated h hlo clone grow
    | updateCachelist init changed clone grow =>
      cases hev
      cases happens_of_next hn with
      | updateCachelist hlo =>
        rw [PoolSt.updateCachelist]
        cases init with
        | true => exact removeLoop_repopulated h hlo clone grow
        | false =>
          cases changed with
          | true =>
            rw [PoolSt.Inv, hlo] at hin
            rw [hin.backups.1] at hl
            have hmo := hl.moveToBackup.nextOfList
            rw [ids, ← List.map_tail] at hmo
            have hli := nextOfList_lists { s.pool.moveToBackup with ketamaVersion := s.pool.ketamaVersion + 1 }
            simp only [Bool.false_eq_true, if_false, if_true, hli.1, hli.2]
            exact hmo
          | false => exact hl
    | putBack updated =>
      cases hev
      rw [LinkEvent.edit]
      cases happens_of_next hn with
      | @putBackToList mc _ hlo =>
        rw [PoolSt.Inv, hlo] at hin
        have hnot := Owned.toCounted hin |>.hand_notMem
        have ha := (hl.addTail hnot.1 hnot.2 hc.lists_nodup.2 hc.lists_nodup.1).nextOfList
        have hli := nextOfList_lists (s.pool.mcListAddTail (s.pool.memberUpdateCachelist updated mc))
        have hb : (s.pool.mcListAddTail (s.pool.memberUpdateCachelist updated mc)).usedBk = s.pool.usedBk := rfl
        simp only [hlo, hli.1, hli.2, hin.usedMc_mcListAddTail, hb]
        simpa [ids] using ha
      | @putBackToPool mc _ hlo =>
        have hb : s.pool.usedBk = [] := by
          rw [PoolSt.Inv, hlo] at hin
          exact hin.backups
        have hli := nextOfList_lists (s.pool.mcPoolAdd (s.pool.memberUpdateCachelist updated mc))
        rw [← nextOfPool_eq (show (s.pool.mcPoolAdd _).usedBk = [] from hb)] at hli
        simp only [hlo, hli.1, hli.2]
        simpa [PoolSt.mcPoolAdd, hb] using hl

def LinkStep (s t : LinkedPool) : Prop := ∃ e : LinkEvent, e.Harmless s ∧ s.step e = some (.ok t)

theorem Linked.step (h : Linked s) (he : e.Harmless s) (hs : s.step e = some r) : Ends
    (fun _ => False) Linked r := by
  obtain ⟨pool, hp, rfl⟩ := Option.map_eq_some_iff.1 hs
  obtain ⟨event, hev, hn⟩ := Option.bind_eq_some_iff.1 hp
  rw [ends_map]
  refine (h.edit he hev hn).imp (fun _ hf => hf) fun links hl => ⟨?_, hl⟩
  exact next_inv h.inv (he.keepsTail hev) hn

theorem create_linked {version ketamaVersion : Int} {initial max : UInt32} {clone : Nat → Bool}
    {s : PoolSt}
    (hm : max.toNat + 1 < 2 ^ 32) (h : create version ketamaVersion initial max clone = some s) :
    Linked ⟨s, .empty⟩ := by
  refine ⟨create_inv hm h, ?_⟩
  have hin := create_inv hm h
  rw [create] at h
  split at h
  · cases h
  · cases h
    rw [PoolSt.Inv, growTimes_masterLock] at hin
    rw [growTimes_usedMc, hin.backups.1]
    exact ⟨rfl, rfl, rfl⟩

/-- In every run without harm the list is well formed, no step fails, and a member that is put behind the
tail is reached from the head. -/
theorem used_list_well_formed {version ketamaVersion : Int} {initial max : UInt32}
    {clone : Nat → Bool}
    {s₀ : PoolSt} {s : LinkedPool} (hmax : max.toNat + 1 < 2 ^ 32)
    (hcreate : create version ketamaVersion initial max clone = some s₀)
    (hrun : Relation.ReflTransGen LinkStep ⟨s₀, .empty⟩ s) :
    (∃ visited, Chain s.links.next s.links.head visited ∧ visited.Nodup ∧ (∀ mc ∈ visited, mc ∈ s.pool.live) ∧
      s.links.tail = visited.getLast? ∧ ∀ mc, mc ∉ visited →
        Chain (s.links.mcListAdd false mc).next (s.links.mcListAdd false mc).head
          (visited ++ [mc])) ∧
    ∀ e f, e.Harmless s → s.step e ≠ some (.error f) := by
  have h : Linked s := by
    refine Runs.run_invariant (fun s t hs hst => ?_) (create_linked hmax hcreate) hrun
    obtain ⟨e, he, hst⟩ := hst
    exact hs.step he hst
  have hc := Owned.toCounted h.inv
  refine ⟨⟨_, h.leads.list, hc.lists_nodup.1, fun mc hm => hc.lists_live (.inl hm),
    h.leads.tail, fun mc hm => ?_⟩, fun e f he hst => h.step he hst⟩
  have ha : Leads { s.links with bkHead := none } (ids s.pool.usedMc) [] := ⟨h.leads.list, h.leads.tail, rfl⟩
  have had := (ha.addTail hm List.not_mem_nil (fun _ _ => List.not_mem_nil) hc.lists_nodup.1).list
  simp only [Links.mcListAdd] at had ⊢
  cases ht : s.links.tail with
  | none | some tail => simpa [ht] using had

/-- Two members are fetched and given back, and `master_lock` is taken. -/
def ReleasedTwo (s : LinkedPool) : Prop :=
  ∃ s₀, create 0 0 2 3 (fun _ => true) = some s₀ ∧ Relation.ReflTransGen LinkStep ⟨s₀, .empty⟩ s ∧
    s.links.tail = some 1

def setFirst : LinkEvent := .behaviorSet true (fun mc => mc == 0) (fun _ => true) (fun _ => true) true

theorem exists_releasedTwo : ∃ s t : LinkedPool, ReleasedTwo s ∧ s.step setFirst = some (.ok t) ∧
    t.links.head = some 0 ∧ t.links.next 0 = none ∧ t.links.tail = some 1 ∧ 1 ∉ t.pool.live := by
  refine ⟨_, _, ⟨_, rfl, .tail (.tail (.tail (.tail (.tail .refl
    ⟨.other (.fetch false false false), trivial, rfl⟩)
    ⟨.other (.fetch false false false), trivial, rfl⟩)
    ⟨.other (.release ⟨1, 0, 0⟩ false false), trivial, rfl⟩)
    ⟨.other (.release ⟨0, 0, 0⟩ false false), trivial, rfl⟩)
    ⟨.other .lockMaster, trivial, rfl⟩, rfl⟩, rfl, rfl, rfl, rfl, by decide⟩

theorem used_list_well_formed_released : ∃ s visited, ReleasedTwo s ∧
    Chain s.links.next s.links.head visited ∧ visited.getLast? = some 1 := by
  obtain ⟨s, -, hs, -⟩ := exists_releasedTwo
  obtain ⟨s₀, hc, hr, ht⟩ := hs
  obtain ⟨⟨visited, hch, -, -, hl, -⟩, -⟩ := used_list_well_formed (by decide) hc hr
  exact ⟨s, visited, ⟨s₀, hc, hr, ht⟩, hch, hl.symm.trans ht⟩

/-- The behavior of the last of two members cannot be set.  It is freed and stays the tail. -/
theorem used_list_tail_freed : ∃ s t : LinkedPool, ReleasedTwo s ∧ s.step setFirst = some (.ok t) ∧
    Chain t.links.next t.links.head [0] ∧ t.links.tail = some 1 ∧ 1 ∉ t.pool.live := by
  obtain ⟨s, t, hs, hst, hh, hn, ht, hf⟩ := exists_releasedTwo
  exact ⟨s, t, hs, hst, ⟨hh, hn⟩, ht, hf⟩

end ArcusClient
