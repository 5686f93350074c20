/-
# Conservation and the balance chain

The ledger invariant ties the balances table to the history of journal rows: every
balance is the sum of its account's rows, its version their number, and the rows of an
account form a chain of previous and current balances.  The invariant is stated over a
history `l` rather than over the journal table, so that it survives the deletion of
journal rows; as long as nothing is deleted the history is the journal itself.

`transfer_isOk_iff` says when a transfer succeeds, in terms of its arguments and the
tables before it.  `Ledger.posted` and `Ledger.defined` are the two step lemmas, and
`ledger_conserved` collects what holds after every run of definitions and transfers.
-/
import Xolu.Lib.Run
import Xolu.Lib.Trees
import Xolu.Bal.Store
import Mathlib.Data.List.Sort

namespace Xolu.Bal

open List Num64 Instant Chronicle Dxp Keyed Runs Transfer Tables Option

/-! ### Chains of journal rows -/

/-- The rows of one account. -/
def rowsOf (l : List Entry) (key : Nat) : List Entry := l.filter (·.key == key)

/-- The sum of the amounts. -/
def total (l : List Entry) : Int := (l.map Entry.amount).sum

/-- Rows that continue a chain from balance `prev` and version `n`. -/
def Chain : Int → Nat → List Entry → Prop
  | _, _, [] => True
  | prev, n, e :: es =>
    e.version = n + 1 ∧ e.previousBalance = prev ∧
      e.previousBalance + e.amount = e.currentBalance ∧ Chain e.currentBalance (n + 1) es

instance Chain.decidable : ∀ prev n l, Decidable (Chain prev n l)
  | _, _, [] => .isTrue trivial
  | prev, n, e :: es =>
    have := Chain.decidable e.currentBalance (n + 1) es
    inferInstanceAs (Decidable (e.version = n + 1 ∧ e.previousBalance = prev ∧
      e.previousBalance + e.amount = e.currentBalance ∧ Chain e.currentBalance (n + 1) es))

@[simp] theorem total_nil : total [] = 0 := rfl

@[simp] theorem total_cons (e : Entry) (l : List Entry) :
    total (e :: l) = e.amount + total l := sum_cons

@[simp] theorem total_append (l m : List Entry) : total (l ++ m) = total l + total m := by
  simp only [total, map_append, sum_append]

@[simp] theorem rowsOf_append (l m : List Entry) (k : Nat) :
    rowsOf (l ++ m) k = rowsOf l k ++ rowsOf m k := filter_append ..

/-- The rows a transfer adds to an account. -/
theorem rowsOf_entries (x : Transfer) (seq : Nat) (ra rb : Balance) (k : Nat) :
    rowsOf (x.entries seq (x.debited ra) (x.credited rb)) k
      = (if ra.key = k then [x.entry (seq + 1) (x.debited ra) (-x.amount)] else [])
        ++ (if rb.key = k then [x.entry (seq + 2) (x.credited rb) x.amount] else []) := by
  by_cases ha : ra.key = k <;> by_cases hb : rb.key = k <;>
    simp [rowsOf, entries, entry, debited, credited, ha, hb]

theorem mem_rowsOf {l : List Entry} {k : Nat} {e : Entry} : e ∈ rowsOf l k ↔ e ∈ l ∧ e.key = k := by
  simp [rowsOf, mem_filter]

/-- A chain ends at its start balance plus its total and at its start version plus its
length, so this is where the next row attaches. -/
theorem chain_append {prev : Int} {n : Nat} {l m : List Entry} :
    Chain prev n (l ++ m) ↔ Chain prev n l ∧ Chain (prev + total l) (n + l.length) m := by
  induction l generalizing prev n with
  | nil => simp [Chain]
  | cons e l ih =>
    rw [cons_append]
    simp only [Chain, ih, total_cons, length_cons]
    constructor
    · rintro ⟨hv, hp, hc, hl, hm⟩
      refine ⟨⟨hv, hp, hc, hl⟩, ?_⟩
      rwa [← add_assoc, ← hp, hc, Nat.add_comm l.length, ← Nat.add_assoc]
    · rintro ⟨⟨hv, hp, hc, hl⟩, hm⟩
      refine ⟨hv, hp, hc, hl, ?_⟩
      rwa [← add_assoc, ← hp, hc, Nat.add_comm l.length, ← Nat.add_assoc] at hm

/-- A balance row and the history of its account agree. -/
structure Books (rows : List Entry) (b : Balance) : Prop where
  value : b.value = total rows
  version : b.version = rows.length
  chain : Chain 0 0 rows

/-- Posting one more row. -/
theorem Books.snoc {rows : List Entry} {b : Balance} (h : Books rows b) {e : Entry} {k : Nat}
    (hv : e.version = b.version + 1) (hp : e.previousBalance = b.value)
    (hc : e.previousBalance + e.amount = e.currentBalance) :
    Books (rows ++ [e]) ⟨k, b.value + e.amount, b.version + 1⟩ where
  value := by rw [total_append, total_cons, total_nil, add_zero, h.value]
  version := by rw [length_append, length_singleton, h.version]
  chain := by
    refine chain_append.mpr ⟨h.chain, ?_, ?_, hc, trivial⟩
    · rw [hv, h.version, Nat.zero_add]
    · rw [hp, h.value, zero_add]

/-! ### The ledger invariant -/

/-- The tables are well formed: primary keys, unique account ids, one balance row for
each account. -/
structure WellFormed (t : Tables) : Prop where
  keys : UniqueKey Account.key t.accounts
  ids : UniqueKey Account.id t.accounts
  rows : t.balances.map Balance.key = t.accounts.map Account.key

/-- The tables agree with the history `l` of all rows ever journaled. -/
structure Ledger (l : List Entry) (t : Tables) : Prop extends WellFormed t where
  seq : ∀ e ∈ l, e.entryId ≤ t.seq
  sorted : l.Pairwise fun e f => e.entryId < f.entryId
  known : ∀ e ∈ l, e.key ∈ t.accounts.map Account.key
  books : ∀ b ∈ t.balances, Books (rowsOf l b.key) b
  sum : (t.balances.map Balance.value).sum = 0

section

variable {t t' : Tables} {l : List Entry}

theorem WellFormed.balanceKeys (wf : WellFormed t) : UniqueKey Balance.key t.balances := by
  unfold UniqueKey
  rw [wf.rows]
  exact wf.keys

/-- Every account has a balance row. -/
theorem WellFormed.exists_balance (wf : WellFormed t) {a : Account} (ha : a ∈ t.accounts) :
    ∃ b ∈ t.balances, b.key = a.key := by
  have h : a.key ∈ t.balances.map Balance.key := wf.rows ▸ mem_map_of_mem ha
  simpa using h

/-- Ids and keys name the same accounts. -/
theorem WellFormed.account_eq (wf : WellFormed t) {a b : Account} (ha : a ∈ t.accounts)
    (hb : b ∈ t.accounts) : a.key = b.key ↔ a.id = b.id :=
  ⟨fun h => by rw [wf.keys.eq_of_key ha hb h], fun h => by rw [wf.ids.eq_of_key ha hb h]⟩

/-- `SELECT value FROM balances`, zero if there is no row. -/
def Tables.valueOf (t : Tables) (key : Nat) : Int :=
  ((t.balances.find? (·.key == key)).map Balance.value).getD 0

theorem WellFormed.valueOf (wf : WellFormed t) {b : Balance} (hb : b ∈ t.balances) :
    t.valueOf b.key = b.value := by
  unfold Tables.valueOf
  rcases h : t.balances.find? (·.key == b.key) with _ | c
  · exact absurd (find?_eq_none.mp h b hb) (by simp)
  · have hc := mem_of_find?_eq_some h
    have hk : c.key = b.key := by simpa using find?_some h
    rw [h, map_some, getD_some, wf.balanceKeys.eq_of_key hc hb hk]

section Posted

variable {x : Transfer} {cs cd : Int} {a b : Account} {ra rb : Balance}

variable (p : Posted t x cs cd a ra b rb t') (wf : WellFormed t) (hne : x.src ≠ x.dst)

include p

theorem Posted.mem_src : a ∈ t.accounts := (account?_spec p.debited.account).1

theorem Posted.mem_dst : b ∈ t.accounts := (account?_spec p.credited.account).1

theorem Posted.accounts : t'.accounts = t.accounts := by rw [p.tables]; rfl

theorem Posted.account? (id : String) : t'.account? id = t.account? id := by
  simp [Tables.account?, p.accounts]

theorem Posted.journal :
    t'.journal = t.journal ++ x.entries t.seq (x.debited ra) (x.credited rb) := by
  rw [p.tables]; rfl

theorem Posted.seq : t'.seq = t.seq + 2 := by rw [p.tables]; rfl

theorem Posted.checkpoints : t'.checkpoints = (t.checkpoints.map
    (Checkpoint.adjust ra.key (-x.amount) (unix x.instant))).map
      (Checkpoint.adjust rb.key x.amount (unix x.instant)) := by
  rw [p.tables]; rfl

theorem Posted.balances : t'.balances
    = put Balance.key (put Balance.key t.balances (x.debited ra)) (x.credited rb) := by
  rw [p.tables]; rfl

include wf hne

/-- Two ids are two accounts. -/
theorem Posted.key_ne : a.key ≠ b.key := by
  rw [Ne, wf.account_eq p.mem_src p.mem_dst, (account?_spec p.debited.account).2,
    (account?_spec p.credited.account).2]
  exact hne

/-- The debit does not touch the row that is credited. -/
theorem Posted.credited_row : rb ∈ t.balances := by
  have h : rb = x.debited ra ∨ rb ∈ t.balances ∧ rb.key ≠ (x.debited ra).key :=
    (mem_put p.debited.row (x.debited_key ra).symm).mp p.credited.row
  rcases h with rfl | ⟨h, _⟩
  · exact absurd (p.debited.key.symm.trans p.credited.key) (p.key_ne wf hne)
  · exact h

theorem Posted.mem_balances {r : Balance} : r ∈ t'.balances ↔ r = x.credited rb ∨ r = x.debited ra ∨
      r ∈ t.balances ∧ r.key ≠ ra.key ∧ r.key ≠ rb.key := by
  have hkey : ra.key ≠ rb.key := by
    rw [p.debited.key, p.credited.key]
    exact p.key_ne wf hne
  have hrow : rb ∈ put Balance.key t.balances (x.debited ra) := p.credited.row
  rw [p.balances, mem_put hrow (x.credited_key rb).symm,
    mem_put p.debited.row (x.debited_key ra).symm]
  constructor
  · rintro (h | ⟨h | ⟨h, ha⟩, hb⟩)
    · exact .inl h
    · exact .inr (.inl h)
    · exact .inr (.inr ⟨h, ha, hb⟩)
  · rintro (h | rfl | ⟨h, ha, hb⟩)
    · exact .inl h
    · exact .inr ⟨.inl rfl, hkey⟩
    · exact .inr ⟨.inr ⟨h, ha⟩, hb⟩

omit hne in
theorem Posted.wellFormed : WellFormed t' where
  keys := by rw [p.accounts]; exact wf.keys
  ids := by rw [p.accounts]; exact wf.ids
  rows := by
    rw [p.accounts, ← wf.rows, p.balances, map_key_put, map_key_put]

/-- The balances after a transfer. -/
theorem Posted.valueOf {c : Account} (hc : c ∈ t.accounts) :
    t'.valueOf c.key = t.valueOf c.key + (if c.key = a.key then -x.amount else 0)
      + (if c.key = b.key then x.amount else 0) := by
  have wf' := p.wellFormed wf
  have hkey := p.key_ne wf hne
  have hmem := fun r => p.mem_balances wf hne (r := r)
  by_cases ha : c.key = a.key
  · have h := wf'.valueOf ((hmem (x.debited ra)).mpr (.inr (.inl rfl)))
    have h₀ := wf.valueOf p.debited.row
    rw [debited_key, p.debited.key] at h
    rw [p.debited.key] at h₀
    rw [ha, if_pos rfl, if_neg hkey, h, h₀]
    simp only [Transfer.debited]
    omega
  by_cases hb : c.key = b.key
  · have h := wf'.valueOf ((hmem (x.credited rb)).mpr (.inl rfl))
    have h₀ := wf.valueOf (p.credited_row wf hne)
    rw [credited_key, p.credited.key] at h
    rw [p.credited.key] at h₀
    rw [hb, if_neg hkey.symm, if_pos rfl, h, h₀]
    simp only [Transfer.credited]
    omega
  · obtain ⟨r, hr, hrk⟩ := wf.exists_balance hc
    have hr' : r ∈ t'.balances := by
      refine (hmem r).mpr (.inr (.inr ⟨hr, ?_, ?_⟩))
      · rwa [hrk, p.debited.key]
      · rwa [hrk, p.credited.key]
    rw [if_neg ha, if_neg hb, ← hrk, wf'.valueOf hr', wf.valueOf hr]
    omega

end Posted

/-! ### When a transfer succeeds -/

variable (t)

/-- The balance of an account by its id, zero if there is none. -/
def Tables.valueAt (id : String) : Int :=
  match t.account? id with
  | some a => t.valueOf a.key
  | none => 0

/-- The account exists and takes entries, and `bound` holds of it at the value `v`. -/
def Tables.Accepts (id : String) (bound : Account → Int → Bool) (v : Int) : Prop :=
  ∃ a ∈ t.account? id, a.postable = true ∧ bound a v = true
deriving Decidable

/-- The policy of the account admits an entry dated `at'`. -/
def Tables.Arrives (id : String) (at' : Int) : Prop :=
  ∀ a ∈ t.account? id, a.policy = .backdated ∨ t.laterEntry a.key at' = false
deriving Decidable

/-- Both accounts accept the transfer at their present values and dates. -/
def Tables.Takes (x : Transfer) (cs cd : Int) : Prop :=
  (t.Accepts x.src (floorBound x.amount cs) (t.valueAt x.src) ∧
    InRange (t.valueAt x.src - x.amount)) ∧
  (t.Accepts x.dst (ceilingBound x.amount cd) (t.valueAt x.dst) ∧
    InRange (t.valueAt x.dst + x.amount)) ∧
  t.Arrives x.src x.instant ∧ t.Arrives x.dst x.instant
deriving Decidable

variable {t}

/-- What `Transfer` checks, read off its arguments and the tables before it. -/
@[mk_iff] structure Store.Allows (s : Store) (now : Int) (x : Transfer) (t : Tables) : Prop where
  positive : 0 < x.amount
  distinct : x.src ≠ x.dst
  unsealed : ∀ z ∈ s.sealer, z.sealed x.instant = false
  takes : t.Takes x (s.claimed now x.src) (s.claimed now x.dst)

instance (s : Store) (now : Int) (x : Transfer) (t : Tables) : Decidable (s.Allows now x t) :=
  decidable_of_iff _ (s.allows_iff now x t).symm

section Allowed

variable {x : Transfer} {cs cd : Int} {bound : Account → Int → Bool} {id : String} {at' : Int}

variable {a : Account} {r : Balance}

theorem Leg.value (wf : WellFormed t) (h : Leg t id bound at' a r) : t.valueAt id = r.value := by
  rw [valueAt, h.account, ← wf.valueOf h.row, h.key]

theorem exists_leg_iff (wf : WellFormed t) :
    (∃ a r, Leg t id bound at' a r) ↔ t.Accepts id bound (t.valueAt id) ∧ t.Arrives id at' := by
  constructor
  · rintro ⟨a, r, h⟩
    rw [h.value wf]
    refine ⟨⟨a, h.account, h.postable, h.bound⟩, ?_⟩
    intro a' ha'
    obtain rfl : a = a' := some.inj (h.account.symm.trans ha')
    exact h.arrival
  · rintro ⟨⟨a, ha, hpost, hbound⟩, harr⟩
    obtain ⟨r, hr, hk⟩ := wf.exists_balance (account?_spec ha).1
    have hv : t.valueAt id = r.value := by
      rw [valueAt, show t.account? id = some a from ha, ← wf.valueOf hr, hk]
    rw [hv] at hbound
    exact ⟨a, r, ha, hpost, hr, hk, hbound, harr a ha⟩

/-- The guarded UPDATE finds the row of the leg. -/
theorem Leg.guardedUpdate (hu : UniqueKey Balance.key t.balances) (h : Leg t id bound at' a r)
    (side : Side) {move : Int → Sql} {v : Int} (hv : move r.value = .int v) :
    t.guardedUpdate id side bound move at'
      = (.ok ⟨r.key, v, r.version + 1⟩, t.setBalance ⟨r.key, v, r.version + 1⟩) := by
  have hfind : t.balances.find? (t.admits id at' bound) = some r := by
    rcases hf : t.balances.find? (t.admits id at' bound) with _ | r'
    · exact absurd ((admits_iff h.row).mpr ⟨a, h⟩) (find?_eq_none.mp hf r h.row)
    · have hr' := mem_of_find?_eq_some hf
      obtain ⟨a', h'⟩ := (admits_iff hr').mp (find?_some hf)
      obtain rfl : a = a' := some.inj (h.account.symm.trans h'.account)
      rw [hu.eq_of_key hr' h.row (h'.key.trans h.key.symm)]
  simp only [Tables.guardedUpdate, hfind, hv]

/-- What `Posted` says is also enough. -/
theorem transferInTx_of_posted {sealer : Option Sealer} {b : Account} {ra rb : Balance}
    (wf : WellFormed t) (hs : ∀ s, sealer = some s → s.sealed x.instant = false)
    (p : Posted t x cs cd a ra b rb t') :
    transferInTx sealer x cs cd t = (.ok (ra.key, rb.key), t') := by
  have hsealed : sealer.filter (·.sealed x.instant) = none := by
    rw [filter_eq_none_iff]
    intro s hs'
    simp [hs s hs']
  have hdebit : debit x.src x.amount cs x.instant t
      = (.ok (x.debited ra), t.setBalance (x.debited ra)) :=
    p.debited.guardedUpdate wf.balanceKeys _ (Sql.sub_int p.srcRange)
  have hcredit : credit x.dst x.amount cd x.instant (t.setBalance (x.debited ra))
      = (.ok (x.credited rb), (t.setBalance (x.debited ra)).setBalance (x.credited rb)) :=
    p.credited.guardedUpdate wf.balanceKeys.put _ (Sql.add_int p.dstRange)
  simp only [transferInTx, hsealed, hdebit, hcredit, p.tables]
  rfl

/-- The debit leaves the other account as it was. -/
theorem leg_setBalance_iff {b : Account} {old row : Balance} (hold : old ∈ t.balances)
    (hkey : old.key = row.key) (hk : b.key ≠ row.key) :
    Leg (t.setBalance row) id bound at' b r ↔ Leg t id bound at' b r := by
  have hmem : r.key = b.key → (r ∈ put Balance.key t.balances row ↔ r ∈ t.balances) := by
    intro hr
    rw [mem_put hold hkey]
    constructor
    · rintro (rfl | h)
      · exact absurd hr.symm hk
      · exact h.1
    · exact fun h => .inr ⟨h, hr ▸ hk⟩
  constructor
  · rintro ⟨h₁, h₂, h₃, h₄, h₅, h₆⟩
    exact ⟨h₁, h₂, (hmem h₄).mp h₃, h₄, h₅, h₆⟩
  · rintro ⟨h₁, h₂, h₃, h₄, h₅, h₆⟩
    exact ⟨h₁, h₂, (hmem h₄).mpr h₃, h₄, h₅, h₆⟩

/-- A transfer goes through iff both accounts accept it at their present values. -/
theorem exists_posted_iff (wf : WellFormed t) (x : Transfer) (cs cd : Int) (hne : x.src ≠ x.dst) :
    (∃ a ra b rb t', Posted t x cs cd a ra b rb t') ↔ t.Takes x cs cd := by
  constructor
  · rintro ⟨a, ra, b, rb, t', p⟩
    have hk : b.key ≠ (x.debited ra).key := by
      rw [debited_key, p.debited.key]
      exact (p.key_ne wf hne).symm
    have hcredited := (leg_setBalance_iff p.debited.row (x.debited_key ra).symm hk).mp p.credited
    obtain ⟨hsrc, hsrc'⟩ := (exists_leg_iff wf).mp ⟨a, ra, p.debited⟩
    obtain ⟨hdst, hdst'⟩ := (exists_leg_iff wf).mp ⟨b, rb, hcredited⟩
    refine ⟨⟨hsrc, ?_⟩, ⟨hdst, ?_⟩, hsrc', hdst'⟩
    · rw [p.debited.value wf]
      exact p.srcRange
    · rw [hcredited.value wf]
      exact p.dstRange
  · rintro ⟨⟨hsrc, hsrcR⟩, ⟨hdst, hdstR⟩, hsrc', hdst'⟩
    obtain ⟨a, ra, ha⟩ := (exists_leg_iff wf).mpr ⟨hsrc, hsrc'⟩
    obtain ⟨b, rb, hb⟩ := (exists_leg_iff wf).mpr ⟨hdst, hdst'⟩
    obtain ⟨ham, haid⟩ := account?_spec ha.account
    obtain ⟨hbm, hbid⟩ := account?_spec hb.account
    have hk : b.key ≠ (x.debited ra).key := by
      rw [debited_key, ha.key, Ne, wf.account_eq hbm ham, hbid, haid]
      exact hne.symm
    rw [ha.value wf] at hsrcR
    rw [hb.value wf] at hdstR
    exact ⟨a, ra, b, rb, _, ha, hsrcR,
      (leg_setBalance_iff ha.row (x.debited_key ra).symm hk).mpr hb, hdstR, rfl⟩

/-- `Transfer` succeeds iff its checks pass. -/
theorem transfer_isOk_iff (wf : WellFormed t) (s : Store) (now : Int) (x : Transfer) :
    (s.transfer now x t).1.isOk = true ↔ s.Allows now x t := by
  constructor
  · intro h
    rcases hx : s.transfer now x t with ⟨e | ks, t'⟩
    · rw [hx] at h
      cases h
    · obtain ⟨hpos, hne, htx⟩ := transfer_spec hx
      obtain ⟨hs, a, ra, b, rb, p, -⟩ := transferInTx_ok htx
      refine ⟨hpos, hne, hs, ?_⟩
      exact (exists_posted_iff wf x _ _ hne).mp ⟨a, ra, b, rb, t', p⟩
  · rintro ⟨hpos, hne, hs, htakes⟩
    obtain ⟨a, ra, b, rb, t', p⟩ := (exists_posted_iff wf x _ _ hne).mpr htakes
    have htx := transferInTx_of_posted wf hs p
    rw [Store.transfer, if_neg (not_le.mpr hpos), if_neg hne, atomically_ok.mpr htx]
    rfl

end Allowed

/-! ### The two steps -/

theorem Ledger.empty : Ledger [] {} where
  keys := nodup_nil
  ids := nodup_nil
  rows := rfl
  seq := by simp
  sorted := Pairwise.nil
  known := by simp
  books := by simp
  sum := rfl

/-- **A transfer keeps the ledger**, with its two rows added to the history. -/
theorem Ledger.posted {x : Transfer} {cs cd : Int} {a b : Account} {ra rb : Balance}
    (L : Ledger l t) (p : Posted t x cs cd a ra b rb t') (hne : x.src ≠ x.dst) :
    Ledger (l ++ x.entries t.seq (x.debited ra) (x.credited rb)) t' where
  toWellFormed := p.wellFormed L.toWellFormed
  seq := by
    intro e he
    rw [p.seq]
    simp only [entries, mem_append, mem_cons, not_mem_nil, or_false] at he
    rcases he with he | rfl | rfl
    · exact (L.seq e he).trans (by omega)
    · show t.seq + 1 ≤ t.seq + 2; omega
    · exact le_rfl
  sorted := by
    refine pairwise_append.mpr ⟨L.sorted, ?_, ?_⟩
    · simp [entries, entry]
    · intro e he f hf
      have h := L.seq e he
      rcases mem_entries.mp hf with rfl | rfl
      · show e.entryId < t.seq + 1; omega
      · show e.entryId < t.seq + 2; omega
  known := by
    intro e he
    rw [p.accounts]
    simp only [entries, mem_append, mem_cons, not_mem_nil, or_false] at he
    rcases he with he | rfl | rfl
    · exact L.known e he
    · show ra.key ∈ _
      rw [p.debited.key]
      exact mem_map_of_mem p.mem_src
    · show rb.key ∈ _
      rw [p.credited.key]
      exact mem_map_of_mem p.mem_dst
  books := by
    have hkey : ra.key ≠ rb.key := by
      rw [p.debited.key, p.credited.key]
      exact p.key_ne L.toWellFormed hne
    have hrb := p.credited_row L.toWellFormed hne
    intro r hr
    rcases (p.mem_balances L.toWellFormed hne).mp hr with rfl | rfl | ⟨hr, hna, hnb⟩
    · -- the credited account gains the second row
      rw [rowsOf_append, x.credited_key, rowsOf_entries, if_neg hkey, if_pos rfl, nil_append]
      exact (L.books rb hrb).snoc rfl (by simp [entry, credited]) (by simp [entry])
    · -- the debited account gains the first
      rw [rowsOf_append, x.debited_key, rowsOf_entries, if_pos rfl, if_neg hkey.symm, append_nil]
      exact (L.books ra p.debited.row).snoc rfl (by simp [entry, debited]) (by simp [entry])
    · rw [rowsOf_append, rowsOf_entries, if_neg (Ne.symm hna), if_neg (Ne.symm hnb),
        append_nil, append_nil]
      exact L.books r hr
  sum := by
    have hu := L.balanceKeys
    have hrow : rb ∈ put Balance.key t.balances (x.debited ra) := p.credited.row
    rw [p.balances, sum_put _ hu.put hrow (x.credited_key rb).symm,
      sum_put _ hu p.debited.row (x.debited_key ra).symm, L.sum]
    simp only [debited, credited]
    omega

/-- The allocated key is new. -/
theorem Tables.nextKey_fresh (t : Tables) : t.nextKey ∉ t.accounts.map Account.key := by
  intro h
  exact absurd (Trees.le_foldl_max id h 0) (Nat.lt_succ_self _).not_ge

/-- **A definition keeps the ledger.** -/
theorem Ledger.defined {d : AccountDef} {k : Nat} (L : Ledger l t)
    (h : defineAccount d t = (.ok k, t')) : Ledger l t' := by
  obtain ⟨-, hid, -, policy, -, rfl⟩ := defineAccount_spec h
  have hfresh := t.nextKey_fresh
  refine { keys := ?_, ids := ?_, rows := ?_, seq := L.seq, sorted := L.sorted,
           known := ?_, books := ?_, sum := ?_ }
  · apply L.keys.concat
    intro a ha hk
    have hk' : a.key = t.nextKey := hk
    exact hfresh (hk' ▸ mem_map_of_mem ha)
  · exact L.ids.concat hid
  · rw [map_append, map_append, L.rows]
    rfl
  · intro e he
    rw [map_append]
    exact mem_append_left _ (L.known e he)
  · intro b hb
    rcases mem_append.mp hb with hb | hb
    · exact L.books b hb
    · -- the new account has no rows yet
      rw [mem_singleton] at hb
      subst hb
      have hrows : rowsOf l t.nextKey = [] := by
        refine filter_eq_nil_iff.mpr fun e he heq => hfresh ?_
        rw [beq_iff_eq] at heq
        exact heq ▸ L.known e he
      rw [hrows]
      exact ⟨rfl, rfl, trivial⟩
  · rw [map_append, sum_append, L.sum]
    rfl

end

/-! ### Runs of definitions and transfers -/

/-- One atomic step on the tables.  Every transfer is issued through its own `Store`
value, with whatever claims cache and sealer that one has. -/
inductive Cmd where
  | define (d : AccountDef)
  | transfer (s : Store) (now : Int) (x : Transfer)

/-- The tables after a step; a refused step leaves them as the source does. -/
def step (t : Tables) : Cmd → Tables
  | .define d => (defineAccount d t).2
  | .transfer s now x => (s.transfer now x t).2

/-- The rows of an account in entry-id order. -/
def Tables.entriesOf (t : Tables) (key : Nat) : List Entry :=
  (rowsOf t.journal key).insertionSort fun e f => e.entryId ≤ f.entryId

/-- The journal is the whole history while nothing is deleted. -/
theorem Ledger.entriesOf {t : Tables} (L : Ledger t.journal t) (k : Nat) :
    t.entriesOf k = rowsOf t.journal k :=
  ((L.sorted.imp fun h => h.le).filter _).insertionSort_eq

theorem ledger_step (t : Tables) (c : Cmd) (L : Ledger t.journal t) :
    Ledger (step t c).journal (step t c) := by
  cases c with
  | define d =>
    show Ledger (defineAccount d t).2.journal (defineAccount d t).2
    rcases h : defineAccount d t with ⟨_ | k, t'⟩
    · obtain rfl : _ = _ := defineAccount_spec h
      exact L
    · have hj : t'.journal = t.journal := by
        obtain ⟨-, -, -, policy, -, rfl⟩ := defineAccount_spec h
        rfl
      rw [hj]
      exact L.defined h
  | transfer s now x =>
    show Ledger (s.transfer now x t).2.journal (s.transfer now x t).2
    rcases h : s.transfer now x t with ⟨_ | ks, t'⟩
    · obtain rfl : _ = _ := transfer_spec h
      exact L
    · obtain ⟨-, hne, htx⟩ := transfer_spec h
      obtain ⟨-, a, ra, b, rb, p, -⟩ := transferInTx_ok htx
      rw [p.journal]
      exact L.posted p hne

/-- The ledger invariant holds after every run. -/
theorem ledger_run (cmds : List Cmd) : Ledger (run step {} cmds).journal (run step {} cmds) :=
  invariant_run (I := fun t => Ledger t.journal t) ledger_step Ledger.empty cmds

/-- **Conservation and chain.**  After every run of definitions and transfers, over any
stores: the balances sum to zero; each account's balance is the sum and its version the
number of its journal rows; these rows, in entry-id order, carry versions 1, 2, ..., start
from balance 0 and hand each current balance to the next row; and a refused transfer
leaves the tables as they were. -/
theorem ledger_conserved (cmds : List Cmd) :
    ((run step {} cmds).balances.map Balance.value).sum = 0 ∧
    (∀ a ∈ (run step {} cmds).accounts, ∃ b ∈ (run step {} cmds).balances, b.key = a.key ∧
      b.value = total ((run step {} cmds).entriesOf a.key) ∧
      b.version = ((run step {} cmds).entriesOf a.key).length ∧
      Chain 0 0 ((run step {} cmds).entriesOf a.key)) ∧
    ∀ (s : Store) (now : Int) (x : Transfer) (e : BalError) (t' : Tables),
      s.transfer now x (run step {} cmds) = (.error e, t') → t' = run step {} cmds := by
  have L := ledger_run cmds
  refine ⟨L.sum, ?_, fun s now x e t' h => transfer_spec h⟩
  intro a ha
  obtain ⟨b, hb, hkey⟩ := L.exists_balance ha
  have hbooks := L.books b hb
  rw [hkey] at hbooks
  refine ⟨b, hb, hkey, ?_⟩
  rw [L.entriesOf]
  exact ⟨hbooks.value, hbooks.version, hbooks.chain⟩

end Xolu.Bal
