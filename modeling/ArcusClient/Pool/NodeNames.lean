import ArcusClient.Pool.ProxyString

/-!
# The grammar of node names

A cache server registers as `<host>:<port>[-...]`, in a replicated cluster with `<group>^(M|S)^` before
it (`NodeName`).  `do_add_server_to_cachelist` takes a name apart with `strtok_r`, which passes over
empty parts and stops at any of its separators, and it looks at the port of the entry even if no port
was read.  It keeps to the grammar on a name of this form whose host has no separator in it, and on
other names that are not taken by accident (`node_name_iff`).
-/

namespace ArcusClient

open CString Strtok List

/-! ## The grammar -/

/-- `<host>:<port>[-...]`, with a decimal port in 1..65535. -/
inductive HostPort : CStr → CStr → UInt16 → Prop where
  | mk {host digits rest : CStr} (hhost : host ≠ []) (hcolon : ofChar ':' ∉ host)
      (hne : digits ≠ []) (hdigits : ∀ c ∈ digits, isDigit c = true)
      (hrest : ∀ c ∈ rest.head?, c = ofChar '-')
      (hport : 1 ≤ digitsValue digits) (hmax : digitsValue digits ≤ 65535) :
      HostPort (host ++ ofChar ':' :: (digits ++ rest)) host (UInt16.ofNat (digitsValue digits))

def roleLetter (master : Bool) : CChar := if master then ofChar 'M' else ofChar 'S'

/-- The names of cache servers with the entries they stand for, without and with replication. -/
inductive NodeName : (isReplEnabled : Bool) → CStr → ServerInfo → Prop where
  | plain {name host : CStr} {port : UInt16} (h : HostPort name host port) :
      NodeName false name ⟨[], host, port, false, false⟩
  | grouped {group address host : CStr} {port : UInt16} (master : Bool) (hne : group ≠ [])
      (hcaret : ofChar '^' ∉ group) (h : HostPort address host port) :
      NodeName true (group ++ ofChar '^' :: roleLetter master :: ofChar '^' :: address)
        ⟨group, host, port, master, false⟩

theorem span_inj {f : CChar → Bool} {a b u v : CStr} (ha : ∀ c ∈ a, f c = true)
    (hb : ∀ c ∈ b, f c = true) (hu : ∀ c ∈ u.head?, f c = false) (hv : ∀ c ∈ v.head?, f c = false)
    (h : a ++ u = b ++ v) : a = b := by
  have ht : ∀ {a u : CStr}, (∀ c ∈ a, f c = true) → (∀ c ∈ u.head?, f c = false) →
      (a ++ u).takeWhile f = a := by
    intro a u ha hu
    rw [takeWhile_append_of_pos ha]
    cases u with
    | nil => rw [takeWhile_nil, append_nil]
    | cons c u => rw [takeWhile_cons_of_neg (by simp [hu c rfl]), append_nil]
  rw [← ht ha hu, h, ht hb hv]

variable {s host : CStr} {port : UInt16}

theorem HostPort.unique {host' : CStr} (h : HostPort s host port)
    (h' : HostPort s host' port') : host = host' ∧ port = port' := by
  obtain ⟨-, hco, -, hd, hr, -, -⟩ := h
  generalize hs : host ++ _ = s at h'
  obtain ⟨-, hc', -, hd', hr', -, -⟩ := h'
  obtain ⟨rfl, hb⟩ := append_sep_inj hco hc' hs
  have hn : ∀ {rest : CStr}, (∀ c ∈ rest.head?, c = ofChar '-') →
      ∀ c ∈ rest.head?, isDigit c = false := by
    intro rest hr c hc
    rw [hr c hc]
    decide
  rw [span_inj hd hd' (hn hr) (hn hr') hb]
  exact ⟨rfl, rfl⟩

theorem roleLetter_injective : Function.Injective roleLetter := by
  decide

variable {isReplEnabled : Bool} {name : CStr} {info : ServerInfo}

theorem NodeName.unique
    (h : NodeName isReplEnabled name info) (h' : NodeName isReplEnabled name info') :
    info = info' := by
  cases h with
  | plain h =>
    cases h' with
    | plain h' =>
      obtain ⟨rfl, rfl⟩ := h.unique h'
      rfl
  | grouped master hn hc h =>
    generalize hna : _ ++ ofChar '^' :: _ = name at h'
    cases h' with
    | grouped master' hn' hc' h' =>
      obtain ⟨rfl, hb⟩ := append_sep_inj hc hc' hna
      injection hb with hr hb
      injection hb with _ ha
      subst ha
      obtain ⟨rfl, rfl⟩ := h.unique h'
      rw [roleLetter_injective hr]

/-! ## What is taken -/

/-- The parts of an address, empty ones left out, are a host and a port that is not zero, or a host
alone while the port of the entry is not zero. -/
inductive TakenAddress (port : UInt16) (s : CStr) : Prop where
  | stale {host : CStr} (h : tokens hostSeps s = [host]) (hport : port ≠ 0)
  | read {host word : CStr} {rest : List CStr} (h : tokens hostSeps s = host :: word :: rest)
      (hport : portOf word ≠ 0)

/-- The parts of a name, empty ones left out, are a group, a role and an address.  Without the last
part the address is read from the start of the name. -/
inductive TakenName : (isReplEnabled : Bool) → (port : UInt16) → CStr → Prop where
  | plain {port : UInt16} {name : CStr} (h : TakenAddress port name) : TakenName false port name
  | grouped {port : UInt16} {name group hostport : CStr} {rest : List CStr} (master : Bool)
      (hparts : tokens [ofChar '^'] name = group :: [roleLetter master] :: hostport :: rest)
      (h : TakenAddress port hostport) : TakenName true port name
  | again {port : UInt16} {name group : CStr} (master : Bool)
      (hparts : tokens [ofChar '^'] name = [group, [roleLetter master]])
      (h : TakenAddress port (throughToken [ofChar '^'] name)) : TakenName true port name

variable {hostport : CStr} {master : Bool}

theorem takenAddress_of_addHostport
    (h : (addHostport groupname master port hostport).1 = some info) :
    TakenAddress port hostport := by
  rw [addHostport] at h
  cases ht : tokens hostSeps hostport with
  | nil => simp [ht] at h
  | cons host rest =>
    simp only [ht] at h
    cases rest with
    | nil =>
      refine .stale ht fun hp => ?_
      simp [hp] at h
    | cons word rest =>
      refine .read ht fun hp => ?_
      simp [hp] at h

theorem TakenAddress.addHostport (h : TakenAddress port hostport)
    (groupname : CStr) (master : Bool) :
    ∃ info, (addHostport groupname master port hostport).1 = some info := by
  cases h with
  | stale h hp | read h hp => exact ⟨_, by simp [ArcusClient.addHostport, h, hp]; rfl⟩

theorem singleton_roleLetter {role : CStr} :
    (role = [ofChar 'M'] ∨ role = [ofChar 'S']) ↔ ∃ master, role = [roleLetter master] := by
  simp [roleLetter, or_comm]

variable {group : CStr}

theorem splitNodename_grouped
    (hp : tokens [ofChar '^'] name = group :: [roleLetter master] :: hostport :: rest) :
    splitNodename name = some (group, master, hostport) := by
  simp only [splitNodename, hp]
  cases master with
  | false | true => rfl

theorem splitNodename_again (hp : tokens [ofChar '^'] name = [group, [roleLetter master]]) :
    ∃ groupname role, splitNodename name =
      some (groupname, role, throughToken [ofChar '^'] name) := by
  simp only [splitNodename, hp, if_pos (singleton_roleLetter.2 ⟨master, rfl⟩)]
  exact ⟨_, _, rfl⟩

theorem splitNodename_inv (h : splitNodename name = some (group, master, hostport)) :
    (∃ rest, tokens [ofChar '^'] name = group :: [roleLetter master] :: hostport :: rest) ∨
      ∃ first, tokens [ofChar '^'] name = [first, [roleLetter master]] ∧
        hostport = throughToken [ofChar '^'] name := by
  cases hp : tokens [ofChar '^'] name with
  | nil => simp [splitNodename, hp] at h
  | cons first more =>
    cases more with
    | nil => simp [splitNodename, hp] at h
    | cons role rest =>
      by_cases hr : role = [ofChar 'M'] ∨ role = [ofChar 'S']
      · obtain ⟨letter, rfl⟩ := singleton_roleLetter.1 hr
        have hl : decide ([roleLetter letter] = [ofChar 'M']) = letter := by
          cases letter with
          | false | true => rfl
        simp only [splitNodename, hp, if_pos hr, hl] at h
        cases rest with
        | nil =>
          cases h
          exact .inr ⟨first, rfl, rfl⟩
        | cons third rest =>
          cases h
          exact .inl ⟨rest, rfl⟩
      · simp only [splitNodename, hp, if_neg hr] at h
        cases h

theorem takenName_iff : TakenName isReplEnabled port name ↔
      ∃ info, (doAddServerToCachelist isReplEnabled port name).1 = some info := by
  constructor
  · intro h
    cases h with
    | plain h => exact h.addHostport [] false
    | grouped master hp h =>
      rw [doAddServerToCachelist, splitNodename_grouped hp]
      exact h.addHostport _ master
    | again master hp h =>
      obtain ⟨groupname, role, hs⟩ := splitNodename_again hp
      rw [doAddServerToCachelist, hs]
      exact h.addHostport groupname role
  · rintro ⟨info, h⟩
    cases isReplEnabled with
    | false => exact .plain (takenAddress_of_addHostport h)
    | true =>
      rw [doAddServerToCachelist] at h
      cases hs : splitNodename name with
      | none => simp [hs] at h
      | some parts =>
        obtain ⟨group, master, hostport⟩ := parts
        rw [hs] at h
        rcases splitNodename_inv hs with ⟨rest, hp⟩ | ⟨first, hp, rfl⟩
        · exact .grouped master hp (takenAddress_of_addHostport h)
        · exact .again master hp (takenAddress_of_addHostport h)

/-! ## Names of the form -/

theorem portOf_digits {digits : CStr} (hn : digits ≠ []) (hd : ∀ c ∈ digits, isDigit c = true)
    (hm : digitsValue digits ≤ 65535) : portOf digits = UInt16.ofNat (digitsValue digits) := by
  have ha : atoi digits = digitsValue digits := by
    cases digits with
    | nil => contradiction
    | cons c rest =>
      have hc := hd c mem_cons_self
      have hs := isSpace_of_isDigit hc
      obtain ⟨hmi, hp⟩ := ne_sign_of_isDigit hc
      rw [atoi, dropWhile_cons_of_neg (by simp [hs])]
      simp only [if_neg hmi, if_neg hp]
  rw [portOf]
  congr 1
  omega

theorem HostPort.addHostport (h : HostPort s host port)
    (hh : ofChar '-' ∉ host) (groupname : CStr) (master : Bool) (old : UInt16) :
    (addHostport groupname master old s).1 = some ⟨groupname, host, port, master, false⟩ := by
  obtain @⟨host, digits, rest, hho, hco, hn, hd, hr, hp, hm⟩ := h
  have hw : ∀ b ∈ host, b ∉ hostSeps := by
    intro b hb hme
    rcases mem_pair.1 hme with rfl | rfl
    · exact hco hb
    · exact hh hb
  have hdig : ∀ b ∈ digits, b ∉ hostSeps := fun b hb => not_mem_hostSeps_of_isDigit (hd b hb)
  obtain ⟨more, hrea⟩ : ∃ more, tokens hostSeps (digits ++ rest) = digits :: more := by
    cases rest with
    | nil => exact ⟨[], by rw [append_nil, tokens_word hdig hn]⟩
    | cons c rest =>
      have hc : c ∈ hostSeps := by
        rw [hr c rfl]
        decide
      exact ⟨_, tokens_word_append hdig hn hc rest⟩
  have hpa : tokens hostSeps (host ++ ofChar ':' :: (digits ++ rest)) = host :: digits :: more := by
    rw [tokens_word_append hw hho (by decide), hrea]
  have hno : UInt16.ofNat (digitsValue digits) ≠ 0 := by
    intro hz
    have hv := congrArg UInt16.toNat hz
    rw [UInt16.toNat_ofNat_of_lt' (by rw [UInt16.size]; omega), UInt16.toNat_zero] at hv
    omega
  simp only [ArcusClient.addHostport, hpa, head?_cons, Option.map_some, Option.getD_some,
    portOf_digits hn hd hm, if_neg hno]

/-- Up to the next caret the address is still one, if the caret is not in the host. -/
theorem HostPort.caret (h : HostPort s host port) (hca : ofChar '^' ∉ host) :
    ∃ t ts, tokens [ofChar '^'] s = t :: ts ∧ HostPort t host port := by
  obtain @⟨host, digits, rest, hh, hco, hn, hd, hr, hp, hm⟩ := h
  have hw : ∀ b ∈ host ++ ofChar ':' :: digits, b ∉ [ofChar '^'] := by
    intro b hb
    simp only [mem_append, mem_cons] at hb
    rcases hb with hb | rfl | hb
    · simpa using ne_of_mem_of_not_mem hb hca
    · decide
    · intro hme
      rw [mem_singleton.1 hme] at hb
      exact absurd (hd _ hb) (by decide)
  obtain ⟨t, u, ts, rfl, ht⟩ := tokens_of_word hw (by simp) rest
  rw [append_assoc, append_assoc] at ht
  refine ⟨_, ts, ht, .mk hh hco hn hd (fun c hc => hr c ?_) hp hm⟩
  cases t with
  | nil => cases hc
  | cons b t => exact hc

theorem tokens_grouped (hn : group ≠ []) (hc : ofChar '^' ∉ group)
    (master : Bool) (address : CStr) :
    tokens [ofChar '^'] (group ++ ofChar '^' :: roleLetter master :: ofChar '^' :: address) =
      group :: [roleLetter master] :: tokens [ofChar '^'] address := by
  have hr : ∀ b ∈ [roleLetter master], b ∉ [ofChar '^'] := by
    intro b hb
    rw [mem_singleton.1 hb]
    cases master with
    | false | true => decide
  rw [tokens_word_append (fun b hb => by simpa using ne_of_mem_of_not_mem hb hc) hn
    mem_cons_self]
  exact congrArg (group :: ·)
    (tokens_word_append hr (cons_ne_nil _ _) mem_cons_self address)

/-- The host that a name is read to have has no separator. -/
def PlainHost (isReplEnabled : Bool) (host : CStr) : Prop :=
  ofChar '-' ∉ host ∧ (isReplEnabled = true → ofChar '^' ∉ host)

/-- A name of the form, with a host without separators, is read as the entry it stands for. -/
theorem NodeName.read
    (h : NodeName isReplEnabled name info) (hp : PlainHost isReplEnabled info.hostname)
    (port : UInt16) : (doAddServerToCachelist isReplEnabled port name).1 = some info := by
  cases h with
  | plain h => exact h.addHostport hp.1 [] false port
  | @grouped group address host port' master hn hc h =>
    obtain ⟨hostport, rest, ht, hostPort⟩ := h.caret (hp.2 rfl)
    have hpa := tokens_grouped hn hc master address
    rw [ht] at hpa
    rw [doAddServerToCachelist, splitNodename_grouped hpa]
    exact hostPort.addHostport hp.1 _ master port

theorem hostname_of_addHostport (h : (addHostport groupname master port hostport).1 = some info) :
    (∀ c ∈ info.hostname, c ∉ hostSeps) ∧ ∀ c ∈ info.hostname, c ∈ hostport := by
  rw [addHostport] at h
  cases ht : tokens hostSeps hostport with
  | nil => simp [ht] at h
  | cons host rest =>
    simp only [ht] at h
    split at h
    · cases h
    · cases h
      exact tokens_head ht

/-- A name of the form that is read as the entry it stands for has no separator in its host. -/
theorem NodeName.plainHost (h : NodeName isReplEnabled name info)
    (hr : (doAddServerToCachelist isReplEnabled port name).1 = some info) :
    PlainHost isReplEnabled info.hostname := by
  cases h with
  | plain h =>
    have hh := (hostname_of_addHostport hr).1
    exact ⟨fun hm => hh _ hm (by decide), fun hre => by cases hre⟩
  | @grouped group address host port' master hn hca h =>
    have hco : ofChar ':' ∈ address := by
      cases h
      simp
    have ht : tokens [ofChar '^'] address ≠ [] := tokens_ne_nil ⟨_, hco, by decide⟩
    obtain ⟨hostport, rest, ht⟩ := exists_cons_of_ne_nil ht
    have hp := tokens_grouped hn hca master address
    rw [ht] at hp
    rw [doAddServerToCachelist, splitNodename_grouped hp] at hr
    obtain ⟨hs, hm⟩ := hostname_of_addHostport hr
    exact ⟨fun hc => hs _ hc (by decide), fun _ hc =>
      (tokens_head ht).1 _ (hm _ hc) mem_cons_self⟩

/-- The entry a name is read as is the one it stands for, just if the name has the form and its host
no separator, or it has not the form and is not taken. -/
theorem node_name_iff (isReplEnabled : Bool) (port : UInt16) (name : CStr) :
    (∀ info, (doAddServerToCachelist isReplEnabled port name).1 = some info ↔
      NodeName isReplEnabled name info) ↔
    (∃ info, NodeName isReplEnabled name info ∧ PlainHost isReplEnabled info.hostname) ∨
      ((∀ info, ¬ NodeName isReplEnabled name info) ∧ ¬ TakenName isReplEnabled port name) := by
  constructor
  · intro h
    by_cases hf : ∃ info, NodeName isReplEnabled name info
    · obtain ⟨info, hin⟩ := hf
      exact .inl ⟨info, hin, hin.plainHost ((h info).2 hin)⟩
    · rw [not_exists] at hf
      refine .inr ⟨hf, fun ht => ?_⟩
      obtain ⟨info, hr⟩ := takenName_iff.1 ht
      exact hf info ((h info).1 hr)
  · rintro (⟨info, hin, hp⟩ | ⟨hf, ht⟩) other
    · have hr := hin.read hp port
      constructor
      · intro ho
        rw [hr] at ho
        cases ho
        exact hin
      · intro ho
        rw [hr, hin.unique ho]
    · refine iff_of_false (fun hr => ht ?_) (hf other)
      exact takenName_iff.2 ⟨other, hr⟩

/-- A host alone is taken with the port that a name before it has left, so its entry is not given by the
name.  A hyphen ends the host, and of the port the low sixteen bits are kept. -/
theorem node_name_not_grammar :
    ((doAddServerToCachelist false 7 (lit ['h'])).1 = some ⟨[], lit ['h'], 7, false, false⟩ ∧
      (doAddServerToCachelist false 0 (lit ['h'])).1 = none) ∧
    (doAddServerToCachelist false 0 (lit "a-5:1".toList)).1 =
      some ⟨[], lit ['a'], 5, false, false⟩ ∧
    (doAddServerToCachelist false 0 (lit "h:65537".toList)).1 =
      some ⟨[], lit ['h'], 1, false, false⟩ := by
  decide

end ArcusClient
