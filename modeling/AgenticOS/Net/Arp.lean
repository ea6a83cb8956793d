import AgenticOS.Foundation.Execution
import AgenticOS.Net.Tcp

/-!
# Repeated addresses in the ARP table

`ArpTable::insert` takes the first free slot, and slot 0 when there is none, without a look
for the address that it inserts. `lookup` answers with the first slot that has the address. So
an address that is inserted again leaves its old entry in the table, which answers at once if
it is before the new one, and otherwise as soon as slot 0 is taken by another address.
-/

namespace AgenticOS.Netstack

open Foundation List

abbrev Resolution : Type := List UInt8 × List UInt8

namespace ArpTable

def learn (t : ArpTable) (c : Resolution) : ArpTable := t.insert c.1 c.2

/-- The hardware address of the most recent call for the address. -/
def latest (calls : List Resolution) (ip : List UInt8) : Option (List UInt8) :=
  (calls.reverse.find? fun c => c.1 = ip).map Prod.snd

/-- The entries that the next `insert` leaves in place. -/
def rest (t : ArpTable) : ArpTable := t.eraseIdx ((t.findIdx? fun e => !e.valid).getD 0)

/-- The entries that stay have no other hardware address for the address. -/
def Keeps (t : ArpTable) (c : Resolution) : Prop :=
  ∀ e ∈ t.rest, e.valid → e.ip = c.1 → e.mac = c.2

instance (t : ArpTable) (c : Resolution) : Decidable (Keeps t c) :=
  inferInstanceAs (Decidable (∀ _ ∈ _, _))

def Current (calls : List Resolution) (t : ArpTable) : Prop :=
  ∀ e ∈ t, e.valid → latest calls e.ip = some e.mac

variable {t : ArpTable} {ip mac : List UInt8} {c : Resolution} {calls : List Resolution}
  {e : ArpEntry}

theorem mem_learn (h : e ∈ t.learn c) : e = ⟨c.1, c.2, true⟩ ∨ e ∈ t.rest := by
  rw [learn, insert, set_eq_take_append_cons_drop] at h
  rw [rest]
  split_ifs at h with hlt
  · rw [eraseIdx_eq_take_drop_succ]
    simp only [mem_append, mem_cons] at h ⊢
    tauto
  · rw [eraseIdx_of_length_le (not_lt.mp hlt)]
    exact .inr h

theorem latest_concat (ip : List UInt8) :
    latest (calls ++ [c]) ip = if c.1 = ip then some c.2 else latest calls ip := by
  rw [latest, reverse_concat, find?_cons]
  split_ifs with h <;> simp [h, latest]

theorem exists_entry_of_lookup (h : t.lookup ip = some mac) :
    ∃ e ∈ t, e.valid ∧ e.ip = ip ∧ e.mac = mac := by
  obtain ⟨e, hfind, rfl⟩ := Option.map_eq_some_iff.mp h
  have he := find?_some hfind
  rw [Bool.and_eq_true, beq_iff_eq] at he
  exact ⟨e, mem_of_find?_eq_some hfind, he.1, he.2, rfl⟩

theorem Current.lookup (h : Current calls t) (hl : t.lookup ip = some mac) :
    latest calls ip = some mac := by
  obtain ⟨e, he, hvalid, rfl, rfl⟩ := exists_entry_of_lookup hl
  exact h e he hvalid

theorem exists_lookup (h : e ∈ t) (hvalid : e.valid) : ∃ mac, t.lookup e.ip = some mac := by
  refine Option.isSome_iff_exists.mp ?_
  rw [ArpTable.lookup, Option.isSome_map, find?_isSome]
  exact ⟨e, h, by rw [hvalid, beq_self_eq_true]; rfl⟩

theorem Current.learn (h : Current calls t) (hk : Keeps t c) :
    Current (calls ++ [c]) (t.learn c) := by
  intro e he hvalid
  rw [latest_concat]
  rcases mem_learn he with rfl | hold
  · exact if_pos rfl
  · split_ifs with hip
    · rw [hk e hold hvalid hip.symm]
    · exact h e (mem_of_mem_eraseIdx hold) hvalid

theorem Current.steady (h : Current calls t) (hk : Keeps t c) (hne : ip ≠ c.1) :
    (t.learn c).lookup ip = t.lookup ip ∨ (t.learn c).lookup ip = none := by
  rcases hl : (t.learn c).lookup ip with _ | mac
  · exact .inr rfl
  · have hnew := (h.learn hk).lookup hl
    rw [latest_concat, if_neg hne.symm] at hnew
    obtain ⟨e, he, hvalid, rfl, rfl⟩ := exists_entry_of_lookup hl
    have hold : e ∈ t := by
      rcases mem_learn he with rfl | hold
      · exact absurd rfl hne
      · exact mem_of_mem_eraseIdx hold
    obtain ⟨mac, hmac⟩ := exists_lookup hold hvalid
    rw [hmac, ← h.lookup hmac, ← hnew]
    exact .inl rfl

/-- **Answers of the table.** After calls that leave no other entry for their address, every
answer is the latest one, and one more such call changes no answer for another address
unless it takes it away. -/
theorem arp_answers_latest (calls : List Resolution) (h : Along learn Keeps new calls) :
    (∀ ip mac, (run learn new calls).lookup ip = some mac → latest calls ip = some mac) ∧
    ∀ c, Keeps (run learn new calls) c → ∀ ip, ip ≠ c.1 →
      ((run learn new calls).learn c).lookup ip = (run learn new calls).lookup ip ∨
        ((run learn new calls).learn c).lookup ip = none := by
  have hcurrent : Current calls (run learn new calls) := by
    induction calls using reverseRecOn with
    | nil =>
      intro e he hvalid
      rw [eq_of_mem_replicate he] at hvalid
      cases hvalid
    | append_singleton calls c ih =>
      obtain ⟨hbefore, hk, -⟩ := along_append.mp h
      rw [run, foldl_concat]
      exact (ih hbefore).learn hk
  exact ⟨fun ip mac => hcurrent.lookup, fun c hk ip => hcurrent.steady hk⟩

theorem arp_answers_latest_two :
    let calls := [([10, 0, 2, 2], [1, 1, 1, 1, 1, 1]), ([10, 0, 2, 3], [2, 2, 2, 2, 2, 2])]
    (run learn new calls).lookup [10, 0, 2, 3] = some [2, 2, 2, 2, 2, 2] ∧
      latest calls [10, 0, 2, 3] = some [2, 2, 2, 2, 2, 2] :=
  ⟨by decide, (arp_answers_latest _ (by decide)).1 _ _ (by decide)⟩

/-- The gateway gets another card, and the table answers with the old one. -/
theorem arp_answer_outdated :
    let calls := [([10, 0, 2, 2], [1, 1, 1, 1, 1, 1]), ([10, 0, 2, 2], [2, 2, 2, 2, 2, 2])]
    (run learn new calls).lookup [10, 0, 2, 2] = some [1, 1, 1, 1, 1, 1] ∧
      latest calls [10, 0, 2, 2] = some [2, 2, 2, 2, 2, 2] := by
  decide

end ArpTable

end AgenticOS.Netstack
