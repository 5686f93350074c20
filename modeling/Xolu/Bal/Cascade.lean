/-
# The rollup under dxp (pkg/bal: dxp_adapter.go, rollup.go)

An ordinary transfer folds its two amounts into the buckets at the instant it journals.  A
leg of a dxp instance is journaled by `Execute` and folded later by `PostCommit`, which has
no instant of its own: it asks the journal for the instant of the instance's transfer id on
the debited account.  All legs of an instance share that id, so the row it finds need not be
the leg's own.

A `Cascade` is a ledger with its rollup plane and the legs that are committed and not yet
folded.  What ties the three together is an equality of multisets, account by account: the
moves folded and the moves owed are those of the journal, up to the hour of their instants.

Main result: `rollup_agrees`.  If every `PostCommit` finds a row in the hour of its leg, then
whenever nothing is owed each bucket holds the sum of its journal rows, and `RebuildRollup`
changes nothing.
-/
import Xolu.Bal.Rollup
import Xolu.Bal.Adapter

namespace Xolu.Bal

open List Num64 Instant Chronicle Dxp Keyed Runs Tiling Transfer Tables

/-! ### The commit hook -/

/-- `journalInstant`: the instant of the oldest row of a transfer id on an account. -/
def Tables.journalInstant (t : Tables) (transferId : String) (key : Nat) : Option Int :=
  (t.journal.find? fun e => e.transferId == transferId && e.key == key).map Entry.instant

/-- `PostCommit` of a leg: fold it at the instant the journal has for its id. -/
def Tables.postCommit (t : Tables) (txn : String) (p : TransferParams) (r : Rollup) : Rollup :=
  match t.account? p.src, t.account? p.dst with
  | some a, some b =>
    match t.journalInstant txn a.key with
    | some at' => r.emitDeltas a.key b.key p.amount at'
    | none => r
  | _, _ => r

/-- `RebuildRollup`: the account's buckets from its journal rows. -/
def Tables.rebuildRollup (t : Tables) (id : String) (r : Rollup) : Rollup :=
  match t.account? id with
  | none => r
  | some a => Function.update r a.key
      (appendAll balGrains startSeconds (deltas (rowsOf t.journal a.key)))

/-- A leg as `Reserve` stashes it: a positive amount between two accounts. -/
structure ReservedTransfer extends PendingTransfer where
  positive : 0 < amount
  distinct : src ≠ dst

/-- The legs of an instance on the coordinator's transaction, each at its own instant. -/
def executeStashed (sealer : Option Sealer) (txn : String) :
    List (ReservedTransfer × Int) → Tables → Except BalError Unit × Tables
  | [], t => (.ok (), t)
  | (p, at') :: legs, t =>
    match transferInTx sealer (p.toTransfer txn at') p.srcClaimed p.dstClaimed t with
    | (.error e, t) => (.error e, t)
    | (.ok _, t) => executeStashed sealer txn legs t

variable {sealer : Option Sealer}

/-- These are the legs the adapter executes, once its stash is looked up. -/
theorem executeLegs_eq_executeStashed {pending : String → Option PendingTransfer} {txn : String}
    {legs : List (Claim × ReservedTransfer × Int)}
    (h : ∀ l ∈ legs, l.1.txn = txn ∧ pending (claimKey l.1) = some l.2.1.toPendingTransfer)
    (t : Tables) : executeLegs sealer pending (legs.map fun l => (l.1, l.2.2)) t
      = executeStashed sealer txn (legs.map Prod.snd) t := by
  induction legs generalizing t with
  | nil => rfl
  | cons l legs ih =>
    obtain ⟨htxn, hstash⟩ := h l mem_cons_self
    rw [map_cons, map_cons, executeLegs, executeStashed, executeLeg, hstash, htxn]
    dsimp only
    rcases transferInTx sealer (l.2.1.toTransfer txn l.2.2) l.2.1.srcClaimed l.2.1.dstClaimed t
      with ⟨e | ks, t'⟩
    · rfl
    · exact ih (fun l hl => h l (mem_cons_of_mem _ hl)) t'

/-- A ledger, its rollup plane, and the committed legs that await `PostCommit`, as the
transfers they were executed as. -/
structure Cascade where
  sealer : Option Sealer
  tables : Tables
  rollup : Rollup
  owed : List Transfer

/-- The steps: an ordinary transfer folds when it commits, an instance commits its legs and
owes their folds, and the hook runs for one leg at a time, in any order. -/
inductive CascadeCmd where
  | define (d : AccountDef)
  | transfer (tenant : String) (claims : Option MemCache) (now : Int) (x : Transfer)
  | commit (txn : String) (legs : List (ReservedTransfer × Int))
  | postCommit (i : Nat)

/-- The transfers an instance executes. -/
def legTransfers (txn : String) (legs : List (ReservedTransfer × Int)) : List Transfer :=
  legs.map fun l => l.1.toTransfer txn l.2

/-- What `PostCommit` has of a leg. -/
def Transfer.params (x : Transfer) : TransferParams := ⟨x.src, x.dst, x.amount, x.memo⟩

namespace Cascade

def step (s : Cascade) : CascadeCmd → Cascade
  | .define d => { s with tables := (defineAccount d s.tables).2 }
  | .transfer tenant claims now x =>
    match Store.transfer ⟨tenant, claims, s.sealer⟩ now x s.tables with
    | (.ok (src, dst), t) => { s with
        tables := t
        rollup := s.rollup.emitDeltas src dst x.amount x.instant }
    | (.error _, _) => s
  | .commit txn legs =>
    match atomically (executeStashed s.sealer txn legs) s.tables with
    | (.ok (), t) => { s with tables := t, owed := s.owed ++ legTransfers txn legs }
    | (.error _, _) => s
  | .postCommit i =>
    match s.owed[i]? with
    | some x => { s with
        rollup := s.tables.postCommit x.transferId x.params s.rollup
        owed := s.owed.eraseIdx i }
    | none => s

def init (sealer : Option Sealer) : Cascade := ⟨sealer, {}, fun _ => [], []⟩

end Cascade

/-! ### Moves -/

/-- The moves of a transfer on an account; none if it names an unknown account. -/
def Transfer.moves (t : Tables) (x : Transfer) (k : Nat) : List (Int × Int) :=
  match t.account? x.src, t.account? x.dst with
  | some a, some b => legMoves a.key b.key x.amount x.instant k
  | _, _ => []

/-- What a bucket sees of a move: the amount and the hour. -/
def hourly (m : Int × Int) : Int × Int := (m.1, hourOf m.2)

theorem legMoves_hourly {src dst : Nat} {amount i j : Int} (h : hourOf i = hourOf j) (k : Nat) :
    (legMoves src dst amount i k).map hourly = (legMoves src dst amount j k).map hourly := by
  unfold legMoves
  by_cases hs : src = k <;> by_cases hd : dst = k <;> simp [hs, hd, hourly, h]

section Posted

variable {t t' : Tables} {x : Transfer} {cs cd : Int} {a b : Account} {ra rb : Balance}

/-- A posted transfer names two accounts. -/
theorem Posted.moves_eq (p : Posted t x cs cd a ra b rb t') (k : Nat) :
    x.moves t k = legMoves a.key b.key x.amount x.instant k := by
  have hb : t.account? x.dst = some b := p.credited.account
  rw [moves, p.debited.account, hb]

/-- The journal gains the moves of a posted transfer. -/
theorem Posted.movesOf_journal (p : Posted t x cs cd a ra b rb t') (k : Nat) :
    movesOf (rowsOf t'.journal k) = movesOf (rowsOf t.journal k) ++ x.moves t k := by
  rw [p.moves_eq, p.journal, rowsOf_append, movesOf_append, movesOf_entries, p.debited.key,
    p.credited.key]

/-- The journal has a row of a posted transfer on the debited account. -/
theorem Posted.exists_row (p : Posted t x cs cd a ra b rb t') :
    ∃ e ∈ t'.journal, e.transferId = x.transferId ∧ e.key = a.key := by
  refine ⟨x.entry (t.seq + 1) (x.debited ra) (-x.amount), ?_, rfl, p.debited.key⟩
  rw [p.journal, entries]
  simp

end Posted

/-! ### What is owed -/

/-- A leg the hook can fold: its accounts exist and its id has a row on the debited one. -/
def Foldable (t : Tables) (x : Transfer) : Prop :=
  x.src ≠ x.dst ∧ ∃ a b, t.account? x.src = some a ∧ t.account? x.dst = some b ∧
    ∃ e ∈ t.journal, e.transferId = x.transferId ∧ e.key = a.key

/-- The moves a list of transfers makes on an account. -/
def movesAll (t : Tables) (xs : List Transfer) (k : Nat) : List (Int × Int) :=
  xs.flatMap fun x => x.moves t k

variable {t t' : Tables}

/-- Moves depend on the accounts alone. -/
theorem movesAll_congr (h : t'.accounts = t.accounts) (xs : List Transfer)
    (k : Nat) : movesAll t' xs k = movesAll t xs k := by
  unfold movesAll moves account?
  rw [h]

/-- The tables grow: accounts stay found and rows stay. -/
structure Grows (t t' : Tables) : Prop where
  account? : ∀ id a, t.account? id = some a → t'.account? id = some a
  journal : t.journal ⊆ t'.journal

theorem Grows.refl (t : Tables) : Grows t t := ⟨fun _ _ h => h, fun _ h => h⟩

theorem Grows.trans {t₁ t₂ t₃ : Tables} (h : Grows t₁ t₂) (h' : Grows t₂ t₃) : Grows t₁ t₃ :=
  ⟨fun id a ha => h'.account? id a (h.account? id a ha), fun _ he => h'.journal (h.journal he)⟩

variable {x : Transfer}

theorem Foldable.grows (h : Foldable t x) (hg : Grows t t') : Foldable t' x := by
  obtain ⟨hne, a, b, ha, hb, e, he, hid, hk⟩ := h
  exact ⟨hne, a, b, hg.account? _ _ ha, hg.account? _ _ hb, e, hg.journal he, hid, hk⟩

/-- The moves of a foldable leg do not depend on later definitions. -/
theorem Foldable.moves_grows (h : Foldable t x) (hg : Grows t t')
    (k : Nat) : x.moves t' k = x.moves t k := by
  obtain ⟨-, a, b, ha, hb, -⟩ := h
  rw [moves, moves, ha, hb, hg.account? _ _ ha, hg.account? _ _ hb]

theorem movesAll_grows {xs : List Transfer} (h : ∀ x ∈ xs, Foldable t x)
    (hg : Grows t t') (k : Nat) : movesAll t' xs k = movesAll t xs k := by
  apply flatMap_congr
  intro x hx
  exact (h x hx).moves_grows hg k

theorem Posted.grows {cs cd : Int} {a b : Account}
    {ra rb : Balance} (p : Posted t x cs cd a ra b rb t') : Grows t t' where
  account? id c h := by rw [p.account?, h]
  journal e he := by
    rw [p.journal]
    exact mem_append_left _ he

/-- A transfer that has been posted can be folded. -/
theorem Posted.foldable {cs cd : Int} {a b : Account} {ra rb : Balance}
    (p : Posted t x cs cd a ra b rb t') (hne : x.src ≠ x.dst) : Foldable t' x := by
  refine ⟨hne, a, b, ?_, ?_, p.exists_row⟩
  · rw [p.account?]
    exact p.debited.account
  · rw [p.account?]
    exact p.credited.account

theorem grows_define {d : AccountDef} {k : Nat}
    (h : defineAccount d t = (.ok k, t')) : Grows t t' := by
  obtain ⟨-, -, -, policy, -, rfl⟩ := defineAccount_spec h
  refine ⟨fun id a ha => ?_, fun e he => he⟩
  unfold account? at *
  rw [find?_append, ha, Option.some_or]

/-- **Everything the legs of an instance did**: the journal gains their moves, and every leg
can be folded. -/
theorem executeStashed_ok {txn : String} {legs : List (ReservedTransfer × Int)}
    (L : Ledger t.journal t) (h : executeStashed sealer txn legs t = (.ok (), t')) :
    Ledger t'.journal t' ∧ Grows t t' ∧ t'.accounts = t.accounts ∧
      (∀ k, movesOf (rowsOf t'.journal k)
        = movesOf (rowsOf t.journal k) ++ movesAll t (legTransfers txn legs) k) ∧
      (∀ x ∈ legTransfers txn legs, Foldable t' x) ∧
      ∀ e ∈ t'.journal, e ∈ t.journal ∨ ∃ l ∈ legs, e.instant = l.2 := by
  induction legs generalizing t with
  | nil =>
    cases h
    exact ⟨L, .refl _, rfl, by simp [legTransfers, movesAll], by simp [legTransfers],
      fun e he => .inl he⟩
  | cons l legs ih =>
    obtain ⟨p, at'⟩ := l
    rw [executeStashed] at h
    split at h
    · cases h
    next ks t₁ hleg =>
    obtain ⟨-, a, ra, b, rb, hp, -⟩ := transferInTx_ok hleg
    have L₁ : Ledger t₁.journal t₁ := hp.journal ▸ L.posted hp p.distinct
    obtain ⟨L', hg, hacc, hmoves, hfold, hdated⟩ := ih L₁ h
    refine ⟨L', hp.grows.trans hg, hacc.trans hp.accounts, ?_, ?_, ?_⟩
    · intro k
      rw [hmoves k, hp.movesOf_journal, append_assoc]
      congr 1
      show _ = moves t _ k ++ movesAll t (legTransfers txn legs) k
      rw [movesAll_congr hp.accounts]
    · intro x hx
      rcases mem_cons.mp hx with rfl | hx
      · exact (hp.foldable p.distinct).grows hg
      · exact hfold x hx
    · intro e he
      rcases hdated e he with he | ⟨l, hl, hi⟩
      · rw [hp.journal, mem_append] at he
        rcases he with he | he
        · exact .inl he
        · exact .inr ⟨(p, at'), mem_cons_self, instant_of_mem_entries he⟩
      · exact .inr ⟨l, mem_cons_of_mem _ hl, hi⟩

/-! ### The invariant -/

theorem turnover_eq (l : List Entry) (k : Nat) :
    turnover l k = ((movesOf (rowsOf l k)).map fun m => |m.1|).sum := by
  unfold turnover movesOf
  rw [map_map]
  rfl

/-- A transfer moves nothing on a key that no account has. -/
theorem movesAll_eq_nil {t : Tables} {k : Nat} (h : ∀ a ∈ t.accounts, a.key ≠ k)
    (xs : List Transfer) : movesAll t xs k = [] := by
  unfold movesAll
  rw [flatMap_eq_nil_iff]
  intro x _
  unfold moves
  split
  next a b ha hb =>
    have hka := h a (account?_spec ha).1
    have hkb := h b (account?_spec hb).1
    rw [legMoves, if_neg hka, if_neg hkb, append_nil]
  · rfl

/-- More moves beside those folded and those owed. -/
theorem perm_fold {α β : Type*} (f : α → β) {done owed rows : List α} (new : List α)
    (h : ((done ++ owed).map f).Perm (rows.map f)) :
    ((done ++ new ++ owed).map f).Perm ((rows ++ new).map f) := by
  have hswap : (done ++ new ++ owed).Perm (done ++ owed ++ new) := by
    rw [append_assoc, append_assoc]
    exact perm_append_comm.append_left done
  refine (hswap.map f).trans ?_
  rw [@map_append _ _ f (done ++ owed) new, @map_append _ _ f rows new]
  exact h.append_right _

namespace Cascade

/-- Folded and owed moves are the moves of the journal, up to the hour. -/
def Balanced (s : Cascade) (done : Nat → List (Int × Int)) : Prop :=
  ∀ k, s.rollup k = appendAll balGrains startSeconds ((done k).map word) ∧
    ((done k ++ movesAll s.tables s.owed k).map hourly).Perm
      ((movesOf (rowsOf s.tables.journal k)).map hourly)

/-- A sound ledger whose journal the folded and owed moves make up. -/
structure Inv (s : Cascade) : Prop where
  ledger : Ledger s.tables.journal s.tables
  foldable : ∀ x ∈ s.owed, Foldable s.tables x
  balanced : ∃ done, s.Balanced done
  dated : ∀ e ∈ s.tables.journal, InCalendar e.instant
  range : ∀ k, turnover s.tables.journal k ≤ 9223372036854775807

theorem inv_init (sealer : Option Sealer) : (init sealer).Inv where
  ledger := Ledger.empty
  foldable := by simp [init]
  balanced := ⟨fun _ => [], fun _ => ⟨rfl, Perm.refl _⟩⟩
  dated := by simp [init]
  range := by simp [init, turnover, rowsOf]

/-- The transfers leave the turnover of every account within the integers. -/
def Room (s : Cascade) (xs : List Transfer) : Prop :=
  ∀ a ∈ s.tables.accounts, turnover s.tables.journal a.key
    + ((movesAll s.tables xs a.key).map fun m => |m.1|).sum ≤ 9223372036854775807
deriving Decidable

/-- Transfers and legs are dated in the calendar and leave room in the integers; and when
the hook runs for a leg, the oldest row of its transfer id on the debited account lies in the
hour the leg was executed in. -/
def Timely (s : Cascade) : CascadeCmd → Prop
  | .define _ => True
  | .transfer tenant claims now x => Store.Allows ⟨tenant, claims, s.sealer⟩ now x s.tables →
      InCalendar x.instant ∧ s.Room [x]
  | .commit txn legs => (∀ l ∈ legs, InCalendar l.2) ∧ s.Room (legTransfers txn legs)
  | .postCommit i => ∀ x ∈ s.owed[i]?, ∀ a ∈ s.tables.account? x.src,
      ∀ at' ∈ s.tables.journalInstant x.transferId a.key, hourOf at' = hourOf x.instant

instance (s : Cascade) : DecidablePred s.Timely
  | .define _ => .isTrue trivial
  | .transfer _ _ _ _ => inferInstanceAs (Decidable (_ → _ ∧ _))
  | .commit _ _ => inferInstanceAs (Decidable (_ ∧ _))
  | .postCommit _ => inferInstanceAs (Decidable (∀ _ ∈ _, _))

variable {s : Cascade} {xs : List Transfer}

/-- The turnover after the journal gained the moves of some transfers. -/
theorem Inv.range_moves (h : s.Inv) (hroom : s.Room xs) {t' : Tables}
    (hmoves : ∀ k, movesOf (rowsOf t'.journal k)
      = movesOf (rowsOf s.tables.journal k) ++ movesAll s.tables xs k) (k : Nat) :
    turnover t'.journal k ≤ 9223372036854775807 := by
  rw [turnover_eq, hmoves, map_append, sum_append, ← turnover_eq]
  by_cases hk : ∃ a ∈ s.tables.accounts, a.key = k
  · obtain ⟨a, ha, rfl⟩ := hk
    exact hroom a ha
  · have hne : ∀ a ∈ s.tables.accounts, a.key ≠ k := fun a ha hak => hk ⟨a, ha, hak⟩
    rw [movesAll_eq_nil hne, map_nil, sum_nil, add_zero]
    exact h.range k

theorem Inv.define (h : s.Inv) (d : AccountDef) : (s.step (.define d)).Inv := by
  rcases hd : defineAccount d s.tables with ⟨e | k, t'⟩
  · obtain rfl : _ = _ := defineAccount_spec hd
    simp only [step, hd]
    exact h
  · have hg := grows_define hd
    have hj : t'.journal = s.tables.journal := by
      obtain ⟨-, -, -, policy, -, rfl⟩ := defineAccount_spec hd
      rfl
    obtain ⟨done, hdone⟩ := h.balanced
    simp only [step, hd]
    refine ⟨?_, fun x hx => (h.foldable x hx).grows hg, ⟨done, fun k => ⟨(hdone k).1, ?_⟩⟩, ?_, ?_⟩
    · rw [hj]
      exact h.ledger.defined hd
    · rw [movesAll_grows h.foldable hg]
      simpa only [hj] using (hdone k).2
    · simpa only [hj] using h.dated
    · simpa only [hj] using h.range

theorem Inv.transfer (h : s.Inv) {tenant : String} {claims : Option MemCache} {now : Int}
    {x : Transfer} (hc : s.Timely (.transfer tenant claims now x)) :
    (s.step (.transfer tenant claims now x)).Inv := by
  have hiff := transfer_isOk_iff h.ledger.toWellFormed ⟨tenant, claims, s.sealer⟩ now x
  rcases ht : Store.transfer ⟨tenant, claims, s.sealer⟩ now x s.tables with ⟨e | ks, t'⟩
  · simp only [step, ht]
    exact h
  · rw [ht] at hiff
    obtain ⟨hcal, hroom⟩ := hc (hiff.mp rfl)
    obtain ⟨-, hne, htx⟩ := transfer_spec ht
    obtain ⟨-, a, ra, b, rb, hp, rfl⟩ := transferInTx_ok htx
    have hkeys := hp.key_ne h.ledger.toWellFormed hne
    obtain ⟨done, hdone⟩ := h.balanced
    simp only [step, ht]
    refine ⟨?_, fun y hy => (h.foldable y hy).grows hp.grows,
      ⟨fun k => done k ++ legMoves a.key b.key x.amount x.instant k, fun k => ⟨?_, ?_⟩⟩, ?_, ?_⟩
    · rw [hp.journal]
      exact h.ledger.posted hp hne
    · exact emitDeltas_appendAll (fun k => (hdone k).1) hkeys _ _ k
    · rw [movesAll_congr hp.accounts, hp.movesOf_journal, hp.moves_eq]
      exact perm_fold hourly _ (hdone k).2
    · intro e he
      rw [show (_ : Cascade).tables.journal = t'.journal from rfl, hp.journal, mem_append] at he
      rcases he with he | he
      · exact h.dated e he
      · rw [instant_of_mem_entries he]
        exact hcal
    · apply h.range_moves hroom
      intro k
      rw [show (_ : Cascade).tables.journal = t'.journal from rfl, hp.movesOf_journal]
      simp [movesAll]

theorem Inv.commit (h : s.Inv) {txn : String} {legs : List (ReservedTransfer × Int)}
    (hc : s.Timely (.commit txn legs)) : (s.step (.commit txn legs)).Inv := by
  rcases ht : atomically (executeStashed s.sealer txn legs) s.tables with ⟨e | ⟨⟩, t'⟩
  · simp only [step, ht]
    exact h
  · obtain ⟨L, hg, hacc, hmoves, hfold, hdated⟩ := executeStashed_ok h.ledger (atomically_ok.mp ht)
    obtain ⟨done, hdone⟩ := h.balanced
    simp only [step, ht]
    refine ⟨L, ?_, ⟨done, fun k => ⟨(hdone k).1, ?_⟩⟩, ?_, h.range_moves hc.2 hmoves⟩
    · intro x hx
      rcases mem_append.mp hx with hx | hx
      · exact (h.foldable x hx).grows hg
      · exact hfold x hx
    · rw [movesAll_congr hacc, hmoves, movesAll, flatMap_append, ← append_assoc]
      rw [map_append, @map_append _ _ _ (movesOf _)]
      exact (hdone k).2.append_right _
    · intro e he
      rcases hdated e he with he | ⟨l, hl, hi⟩
      · exact h.dated e he
      · rw [hi]
        exact hc.1 l hl

/-- Taking a leg out of those owed takes its moves out. -/
theorem movesAll_eraseIdx {t : Tables} {i : Nat} {x : Transfer} (hi : xs[i]? = some x) (k : Nat) :
    (x.moves t k ++ movesAll t (xs.eraseIdx i) k).Perm (movesAll t xs k) := by
  obtain ⟨hlt, rfl⟩ := List.getElem?_eq_some_iff.mp hi
  exact (getElem_cons_eraseIdx_perm hlt).flatMap_right fun x => x.moves t k

theorem Inv.postCommit (h : s.Inv) {i : Nat} (hc : s.Timely (.postCommit i)) :
    (s.step (.postCommit i)).Inv := by
  rcases hi : s.owed[i]? with _ | x
  · simp only [step, hi]
    exact h
  have hx := h.foldable x (mem_of_getElem? hi)
  obtain ⟨hne, a, b, ha, hb, e, he, hid, hk⟩ := hx
  -- the hook finds the accounts and a row
  have hfound : ∃ at', s.tables.journalInstant x.transferId a.key = some at' := by
    unfold journalInstant
    rcases hf : s.tables.journal.find? fun e => e.transferId == x.transferId && e.key == a.key
      with _ | e'
    · exact absurd (find?_eq_none.mp hf e he) (by simp [hid, hk])
    · exact ⟨e'.instant, by rw [hf]; rfl⟩
  obtain ⟨at', hat⟩ := hfound
  have hhour := hc x hi a ha at' hat
  have hkeys : a.key ≠ b.key := by
    obtain ⟨ham, haid⟩ := account?_spec ha
    obtain ⟨hbm, hbid⟩ := account?_spec hb
    rw [Ne, h.ledger.account_eq ham hbm, haid, hbid]
    exact hne
  have hfold : s.tables.postCommit x.transferId x.params s.rollup
      = s.rollup.emitDeltas a.key b.key x.amount at' := by
    simp only [Tables.postCommit, params, ha, hb, hat]
  obtain ⟨done, hdone⟩ := h.balanced
  simp only [step, hi, hfold]
  refine ⟨h.ledger, fun y hy => h.foldable y (mem_of_mem_eraseIdx hy),
    ⟨fun k => done k ++ legMoves a.key b.key x.amount at' k, fun k => ⟨?_, ?_⟩⟩, h.dated, h.range⟩
  · exact emitDeltas_appendAll (fun k => (hdone k).1) hkeys _ _ k
  · have hmoves : x.moves s.tables k = legMoves a.key b.key x.amount x.instant k := by
      rw [moves, ha, hb]
    refine Perm.trans ?_ (hdone k).2
    rw [append_assoc, map_append, map_append, map_append, legMoves_hourly hhour,
      ← hmoves, ← map_append]
    exact ((movesAll_eraseIdx hi k).map hourly).append_left _

theorem inv_step (h : s.Inv) (c : CascadeCmd) (hc : s.Timely c) : (s.step c).Inv := by
  cases c with
  | define d => exact h.define d
  | transfer tenant claims now x => exact h.transfer hc
  | commit txn legs => exact h.commit hc
  | postCommit i => exact h.postCommit hc

/-! ### Buckets and journal -/

/-- Every bucket of every account holds the sum of its journal rows, and rebuilding the
rollup of an account leaves every bucket as it is. -/
structure Agrees (s : Cascade) : Prop where
  buckets : ∀ a ∈ s.tables.accounts, ∀ level < balGrains.levels, ∀ b,
    (balGrains.grain level).truncate b = b → InRange (unix b) →
      (((s.rollup a.key).get level (startSeconds b)).getD 0).toInt
        = total ((rowsOf s.tables.journal a.key).filter
            fun e => (balGrains.grain level).truncate e.instant = b)
  rebuild : ∀ id k level start,
    ((s.tables.rebuildRollup id s.rollup) k).get level start = (s.rollup k).get level start

end Cascade

variable {level : Nat}

/-- Every level sees of an instant its hour. -/
theorem truncate_hourOf (hl : level < balGrains.levels) (i : Int) :
    (balGrains.grain level).truncate (hourOf i) = (balGrains.grain level).truncate i :=
  (balGrains_valid.nests_root hl).trunc_trunc (balGrains_valid.tiles _ balGrains_valid.root_lt)
    (balGrains_valid.tiles _ hl) i

/-- A bucket is filled by hours. -/
theorem bucketValues_hourly (hl : level < balGrains.levels) (ms : List (Int × Int)) (st : Int) :
    bucketValues balGrains startSeconds (ms.map word) level st
      = ((ms.map hourly).filter fun m =>
          startSeconds ((balGrains.grain level).truncate m.2) = st).map
            fun m => BitVec.ofInt 64 m.1 := by
  unfold bucketValues
  rw [filter_map, filter_map, map_map, map_map]
  simp only [Function.comp_def, word, hourly, truncate_hourOf hl]
  rfl

/-- Moves that agree up to the hour and their order fill the same buckets. -/
theorem get_appendAll_hourly {ms ns : List (Int × Int)} (h : (ms.map hourly).Perm (ns.map hourly))
    (level : Nat) (st : Int) : (appendAll balGrains startSeconds (ms.map word)).get level st
      = (appendAll balGrains startSeconds (ns.map word)).get level st := by
  rcases lt_or_ge level balGrains.levels with hl | hl
  · have hperm : (bucketValues balGrains startSeconds (ms.map word) level st).Perm
        (bucketValues balGrains startSeconds (ns.map word) level st) := by
      rw [bucketValues_hourly hl, bucketValues_hourly hl]
      exact (h.filter _).map _
    have hnil : bucketValues balGrains startSeconds (ms.map word) level st = [] ↔
        bucketValues balGrains startSeconds (ns.map word) level st = [] := by
      rw [← length_eq_zero_iff, hperm.length_eq, length_eq_zero_iff]
    simp only [get_appendAll hl, hperm.sum_eq, hnil]
  · rw [get_appendAll_of_le hl, get_appendAll_of_le hl]

/-- Bucket keys tell bucket starts apart. -/
theorem startSeconds_inj (hl : level < balGrains.levels) {b c : Int}
    (hb : (balGrains.grain level).truncate b = b) (hc : (balGrains.grain level).truncate c = c)
    (hbr : InRange (unix b)) (hcr : InRange (unix c)) :
    startSeconds b = startSeconds c ↔ b = c := by
  -- bucket starts are whole hours, so whole seconds
  have whole : ∀ {i : Int}, (balGrains.grain level).truncate i = i → ofUnix (unix i) = i := by
    intro i hi
    have hhour : hourOf i = i := by
      have := balGrains_valid.nests_root hl i
      rwa [hi] at this
    have hmod := (hourOf_spec i).2.2
    unfold ofUnix unix
    omega
  rw [← whole hb, ← whole hc]
  unfold startSeconds
  rw [unix_ofUnix, unix_ofUnix]
  generalize unix b = u at hbr ⊢
  generalize unix c = v at hcr ⊢
  unfold InRange at hbr hcr
  constructor
  · intro h
    rw [show u = v by omega]
  · intro h
    unfold ofUnix at h
    rw [show u = v by omega]

namespace Cascade

variable {s : Cascade}

/-- With nothing owed, the buckets are those of the journal. -/
theorem Inv.get_rollup (h : s.Inv) (howed : s.owed = []) (k level : Nat) (st : Int) :
    (s.rollup k).get level st
      = (appendAll balGrains startSeconds (deltas (rowsOf s.tables.journal k))).get level st := by
  obtain ⟨done, hdone⟩ := h.balanced
  obtain ⟨hroll, hperm⟩ := hdone k
  rw [howed, movesAll, flatMap_nil, append_nil] at hperm
  rw [hroll, deltas_eq]
  exact get_appendAll_hourly hperm level st

theorem Inv.agrees (h : s.Inv) (howed : s.owed = []) : s.Agrees where
  buckets := by
    intro a _ level hl b hb hrange
    have hvalues : bucketValues balGrains startSeconds (deltas (rowsOf s.tables.journal a.key))
        level (startSeconds b) = (((rowsOf s.tables.journal a.key).filter
          fun e => (balGrains.grain level).truncate e.instant = b).map Entry.amount).map
            (BitVec.ofInt 64) := by
      unfold bucketValues deltas
      rw [filter_map, map_map, map_map]
      congr 1
      apply filter_congr
      intro e he
      have hdated := h.dated e (mem_rowsOf.mp he).1
      exact decide_eq_decide.mpr (startSeconds_inj hl ((balGrains_valid.tiles _ hl).idem _) hb
        (inRange_truncate hdated hl) hrange)
    have hget : ((s.rollup a.key).get level (startSeconds b)).getD 0
        = BitVec.ofInt 64 (total ((rowsOf s.tables.journal a.key).filter
            fun e => (balGrains.grain level).truncate e.instant = b)) := by
      rw [h.get_rollup howed, get_appendAll hl, hvalues, sum_map_ofInt, total]
      split
      · next hnil => rw [map_eq_nil_iff.mp hnil]; rfl
      · rfl
    have hle := abs_le.mp ((abs_total_filter_le s.tables.journal a.key
      fun e => (balGrains.grain level).truncate e.instant = b).trans (h.range a.key))
    rw [hget, toInt_ofInt_eq_iff ⟨by omega, by omega⟩ (by simp)]
  rebuild := by
    intro id k level start
    unfold rebuildRollup
    rcases s.tables.account? id with _ | a
    · rfl
    dsimp only
    by_cases hk : k = a.key
    · subst hk
      rw [Function.update_self, h.get_rollup howed]
    · rw [Function.update_of_ne hk]

end Cascade

/-- **The rollup agrees with the journal** after every run whose steps are `Timely`, whenever
no committed leg is left to fold. -/
theorem rollup_agrees (sealer : Option Sealer) (cmds : List CascadeCmd)
    (h : Along Cascade.step Cascade.Timely (Cascade.init sealer) cmds)
    (howed : (run Cascade.step (Cascade.init sealer) cmds).owed = []) :
    (run Cascade.step (Cascade.init sealer) cmds).Agrees := by
  have hinv := invariant_of_along (I := Cascade.Inv) (fun s c hs hc => Cascade.inv_step hs c hc)
    (Cascade.inv_init sealer) h
  exact hinv.agrees howed

/-- A leg from `a` to `b`. -/
def legAB (amount : Int) (h : 0 < amount) : ReservedTransfer :=
  ⟨⟨⟨"a", "b", amount, ""⟩, 0, 0⟩, h, by simp⟩

/-- Two accounts, a transfer, and an instance of two legs whose folds come in the other
order. -/
def instanceRun (first second : Int) : List CascadeCmd :=
  [.define ⟨"a", "EUR", 2, -1000, none, true, ""⟩, .define ⟨"b", "EUR", 2, 0, none, true, ""⟩,
   .transfer "1" none 0 ⟨"t", "a", "b", 5, "", 1800000000000⟩,
   .commit "x" [(legAB 7 (by decide), first), (legAB 11 (by decide), second)],
   .postCommit 1, .postCommit 0]

/-- Both legs in one hour. -/
theorem rollup_agrees_one_hour :
    (run Cascade.step (Cascade.init none) (instanceRun 3600100000000 3600200000000)).Agrees :=
  rollup_agrees none _ (by decide +kernel) (by decide +kernel)

/-- Two legs of one instance, executed just before and just after one o'clock. -/
def acrossTheHour : Cascade :=
  run Cascade.step (Cascade.init none) (instanceRun 3599900000000 3600100000000)

/-- Both are folded into the hour before, and the hour after stays without a bucket. -/
theorem instance_across_the_hour_disagrees : acrossTheHour.owed = [] ∧
    (acrossTheHour.rollup 1).get 0 (startSeconds 3600000000000) = none ∧
    total ((rowsOf acrossTheHour.tables.journal 1).filter
      fun e => hourOf e.instant = 3600000000000) = -11 ∧ ¬ acrossTheHour.Agrees := by
  have hget : (acrossTheHour.rollup 1).get 0 (startSeconds 3600000000000) = none := by
    decide +kernel
  have htotal : total ((rowsOf acrossTheHour.tables.journal 1).filter
      fun e => hourOf e.instant = 3600000000000) = -11 := by decide +kernel
  refine ⟨by decide +kernel, hget, htotal, fun h => ?_⟩
  have hmem : ∃ a ∈ acrossTheHour.tables.accounts, a.key = 1 := by decide +kernel
  obtain ⟨a, ha, hk⟩ := hmem
  have hbucket := h.buckets a ha 0 (by decide) 3600000000000 (by decide) (by decide)
  rw [hk, hget] at hbucket
  exact absurd (hbucket.trans htotal) (by decide)

end Xolu.Bal
