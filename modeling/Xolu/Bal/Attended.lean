/-
# Executing an attended instance (pkg/bal/dxp_adapter.go, dispatchCollapsed)

An instance is attended when each of its legs has been reserved, pessimistically, and
then each has been validated.  Its legs are then executed in one database transaction, in
whatever order the dispatcher's goroutines come to run.

`Validate` stashes for a leg the claims on its account less the leg's own.  The claims of
the other legs on that account are still among them when those legs have already been
executed, so that what they debit counts twice.  `attended_executes_iff` says exactly
which attended instances execute in every order.

An order of legs is an order of guarded moves between accounts, and the worst order for
one leg is the one that runs all its competitors first.
-/
import Xolu.Lib.Moves
import Xolu.Bal.Holds

namespace Xolu.Bal

open Function List Num64 Instant Chronicle Dxp Keyed Runs Moves Tables

/-! ### Balances by id -/

section

variable {t t' : Tables} {x : Transfer} {cs cd : Int}

theorem Tables.Consistent.valueAt_inRange (C : t.Consistent) (id : String) :
    InRange (t.valueAt id) := by
  rcases ha : t.account? id with _ | a
  · rw [valueAt, ha]
    show InRange 0
    decide
  · obtain ⟨r, hr, hk⟩ := C.wellFormed.exists_balance (account?_spec ha).1
    rw [valueAt, ha]
    show InRange (t.valueOf a.key)
    rw [← hk, C.wellFormed.valueOf hr]
    exact C.range r hr

/-- The balances after a transfer, by id. -/
theorem Posted.valueAt {a b : Account} {ra rb : Balance} (p : Posted t x cs cd a ra b rb t')
    (wf : WellFormed t) (hne : x.src ≠ x.dst) (id : String) :
    t'.valueAt id = t.valueAt id + (if id = x.src then -x.amount else 0)
      + (if id = x.dst then x.amount else 0) := by
  have hroom := p.headroom wf hne id
  simp only [Tables.headroom, Tables.valueAt, p.account?] at hroom ⊢
  rcases hc : t.account? id with _ | c
  · rw [hc] at hroom
    exact hroom
  · rw [hc] at hroom
    dsimp only at hroom ⊢
    omega

end

/-! ### Legs as moves -/

/-- One leg of an instance: what it asks for and its participant id. -/
structure BalLeg where
  params : TransferParams
  participantId : String
deriving DecidableEq, Repr

/-- A leg that `Reserve` looks at: a positive amount between two accounts. -/
def BalLeg.Valid (l : BalLeg) : Prop := 0 < l.params.amount ∧ l.params.src ≠ l.params.dst

abbrev ValidLeg := {l : BalLeg // l.Valid}

/-- The claim of a leg. -/
def BalLeg.claim (l : BalLeg) (tenant txn : String) (deadline : Int) : Claim :=
  ⟨txn, "bal", tenant, dxpResource l.params.src, .pessimistic, l.params.amount, deadline,
    l.participantId⟩

/-- The stash of a leg once it has been validated on `s`. -/
def Site.stashOf (s : Site) (l : BalLeg) : PendingTransfer where
  toTransferParams := l.params
  srcClaimed := wrap (s.claimed l.params.src - l.params.amount)
  dstClaimed := s.claimed l.params.dst

theorem floorBound_mono {m c v w : Int} {a : Account} (hm : 0 ≤ m) (hc : InRange c)
    (hv : InRange (v - m)) (hvw : v ≤ w) (hw : w ≤ 9223372036854775807)
    (h : floorBound m c a v = true) : InRange (w - m) ∧ floorBound m c a w = true := by
  have hr : InRange (w - m) := by
    unfold InRange at *
    omega
  refine ⟨hr, ?_⟩
  unfold floorBound at *
  rw [decide_eq_true_iff] at *
  rw [Sql.sub_int hv] at h
  rw [Sql.sub_int hr]
  exact h.trans (Sql.sub_mono hv hr hc (by omega))

theorem ceilingBound_anti {m c v w : Int} {a : Account} (hm : 0 ≤ m) (hc : InRange c)
    (hw : InRange (w + m)) (hvw : v ≤ w) (hv : -9223372036854775808 ≤ v)
    (h : ceilingBound m c a w = true) : InRange (v + m) ∧ ceilingBound m c a v = true := by
  have hr : InRange (v + m) := by
    unfold InRange at *
    omega
  refine ⟨hr, ?_⟩
  unfold ceilingBound at *
  rw [decide_eq_true_iff] at *
  rw [Sql.add_int hw] at h
  rw [Sql.add_int hr]
  exact le_trans (Sql.add_mono hr hw hc (by omega)) h

/-- A validated leg as a move between accounts. -/
def Site.move (s : Site) (l : ValidLeg) :
    Move String (-9223372036854775808) 9223372036854775807 where
  src := l.1.params.src
  dst := l.1.params.dst
  amount := l.1.params.amount
  low v := s.tables.Accepts l.1.params.src
      (floorBound l.1.params.amount (s.stashOf l.1).srcClaimed) v ∧
    InRange (v - l.1.params.amount)
  high v := s.tables.Accepts l.1.params.dst
      (ceilingBound l.1.params.amount (s.stashOf l.1).dstClaimed) v ∧
    InRange (v + l.1.params.amount)
  ne := l.2.2
  nonneg := l.2.1.le
  low_mono := by
    rintro v w - hvw hw ⟨⟨a, ha, hpost, hbound⟩, hv⟩
    obtain ⟨hr, hbound⟩ := floorBound_mono l.2.1.le (wrap_inRange _) hv hvw hw hbound
    exact ⟨⟨a, ha, hpost, hbound⟩, hr⟩
  high_anti := by
    rintro v w hv hvw - ⟨⟨a, ha, hpost, hbound⟩, hw⟩
    obtain ⟨hr, hbound⟩ := ceilingBound_anti l.2.1.le (pessimisticClaimSum_inRange ..) hw hvw hv
      hbound
    exact ⟨⟨a, ha, hpost, hbound⟩, hr⟩
  low_range := fun h => h.2.1
  high_range := fun h => h.2.2

/-! ### Executing legs -/

/-- The tables `t` have grown out of `t₀` by transfers dated up to `since`, and hold the
balances `f`. -/
structure Tracks (t₀ t : Tables) (f : String → Int) (since : Int) : Prop where
  wf : WellFormed t
  accounts : t.accounts = t₀.accounts
  values : ∀ id, t.valueAt id = f id
  later : ∀ key at', since ≤ at' → t.laterEntry key at' = t₀.laterEntry key at'

/-- The instant is not sealed, and both accounts admit it. -/
def Site.Timely (s : Site) (l : BalLeg) (at' : Int) : Prop :=
  (∀ z ∈ s.sealer, z.sealed at' = false) ∧
    s.tables.Arrives l.params.src at' ∧ s.tables.Arrives l.params.dst at'
deriving Decidable

section

variable {t₀ t t' : Tables} {f : String → Int} {since at' : Int}

section

variable (T : Tracks t₀ t f since)

include T

theorem Tracks.account? (id : String) : t.account? id = t₀.account? id := by
  simp [Tables.account?, T.accounts]

theorem Tracks.accepts (id : String) (bound : Account → Int → Bool)
    (v : Int) : t.Accepts id bound v ↔ t₀.Accepts id bound v := by
  simp only [Tables.Accepts, T.account?]

theorem Tracks.arrives (h : since ≤ at') (id : String) : t.Arrives id at' ↔ t₀.Arrives id at' := by
  simp only [Tables.Arrives, T.account?, T.later _ _ h]

/-- Posting a transfer dated `x.instant`. -/
theorem Tracks.posted {x : Transfer} {cs cd : Int} {a b : Account}
    {ra rb : Balance} (p : Posted t x cs cd a ra b rb t') (hne : x.src ≠ x.dst)
    (h : since ≤ x.instant) :
    Tracks t₀ t' (fun id => f id + (if id = x.src then -x.amount else 0)
      + (if id = x.dst then x.amount else 0)) x.instant where
  wf := p.wellFormed T.wf
  accounts := p.accounts.trans T.accounts
  values := by
    intro id
    rw [p.valueAt T.wf hne, T.values]
  later := by
    intro key at' hat
    -- the new rows are dated `x.instant`
    have hnew : (x.entries t.seq (x.debited ra) (x.credited rb)).any
        (fun j => j.key == key && decide (at' < j.instant)) = false := by
      apply any_eq_false.mpr
      intro e he
      simp [Transfer.instant_of_mem_entries he, hat]
    rw [← T.later key at' (h.trans hat)]
    simp only [laterEntry, p.journal, any_append, hnew, Bool.or_false]

end

/-- One leg succeeds iff it is timely and its move passes; the tables then hold the
balances after the move. -/
theorem Tracks.leg {s : Site} (T : Tracks s.tables t f since) (h : since ≤ at')
    (l : ValidLeg) {c : Claim} (hc : s.pending (claimKey c) = some (s.stashOf l.1)) :
    ((∃ ks t', executeLeg s.sealer s.pending c at' t = (.ok ks, t')) ↔
      ((s.move l).low (f l.1.params.src) ∧ (s.move l).high (f l.1.params.dst)) ∧ s.Timely l.1 at') ∧
    ∀ ks t', executeLeg s.sealer s.pending c at' t = (.ok ks, t') →
      Tracks s.tables t' ((s.move l).post f) at' := by
  have hexec : executeLeg s.sealer s.pending c at' t
      = transferInTx s.sealer ((s.stashOf l.1).toTransfer c.txn at') (s.stashOf l.1).srcClaimed
          (s.stashOf l.1).dstClaimed t := by
    simp only [executeLeg, hc]
  have hiff := exists_posted_iff T.wf ((s.stashOf l.1).toTransfer c.txn at')
    (s.stashOf l.1).srcClaimed (s.stashOf l.1).dstClaimed l.2.2
  simp only [Tables.Takes, T.accepts, T.values] at hiff
  rw [hexec]
  constructor
  · constructor
    · rintro ⟨ks, t', hx⟩
      obtain ⟨hs, a, ra, b, rb, p, -⟩ := transferInTx_ok hx
      obtain ⟨hlow, hhigh, hsrc, hdst⟩ := hiff.mp ⟨a, ra, b, rb, t', p⟩
      exact ⟨⟨hlow, hhigh⟩, hs, (T.arrives h _).mp hsrc, (T.arrives h _).mp hdst⟩
    · rintro ⟨⟨hlow, hhigh⟩, hs, hsrc, hdst⟩
      obtain ⟨a, ra, b, rb, t', p⟩ :=
        hiff.mpr ⟨hlow, hhigh, (T.arrives h _).mpr hsrc, (T.arrives h _).mpr hdst⟩
      exact ⟨_, t', transferInTx_of_posted T.wf hs p⟩
  · intro ks t' hx
    obtain ⟨-, a, ra, b, rb, p, -⟩ := transferInTx_ok hx
    exact T.posted p l.2.2 h

/-- The legs in a given order, by induction on their number. -/
theorem executeLegs_iff {s : Site} {claim : BalLeg → Claim} (o : List ValidLeg)
    (ats : List Int) (T : Tracks s.tables t f since) (hlen : ats.length = o.length)
    (hats : (since :: ats).Pairwise (· ≤ ·))
    (hp : ∀ l ∈ o, s.pending (claimKey (claim l.1)) = some (s.stashOf l.1)) :
    (executeLegs s.sealer s.pending ((o.map fun l => claim l.1).zip ats) t).1.isOk = true ↔
      Passes f (o.map s.move) ∧ ∀ q ∈ o.zip ats, s.Timely q.1.1 q.2 := by
  induction o generalizing t f since ats with
  | nil => simp [executeLegs, Passes, Except.isOk, Except.toBool]
  | cons l o ih =>
    obtain _ | ⟨at', ats⟩ := ats
    · cases hlen
    rw [pairwise_cons] at hats
    have hsince : since ≤ at' := hats.1 _ mem_cons_self
    obtain ⟨hleg, hnext⟩ := T.leg hsince l (hp l mem_cons_self)
    have hpasses : Passes f ((l :: o).map s.move) ↔
        ((s.move l).low (f l.1.params.src) ∧ (s.move l).high (f l.1.params.dst)) ∧
          Passes ((s.move l).post f) (o.map s.move) := by
      simp only [map_cons, Passes, and_assoc]
      rfl
    rw [hpasses, map_cons, zip_cons_cons, zip_cons_cons, forall_mem_cons, executeLegs]
    rcases hx : executeLeg s.sealer s.pending (claim l.1) at' t with ⟨e | ks, t₁⟩
    · -- the leg is refused: its guard fails, or it is not timely
      have hno : ¬ (((s.move l).low (f l.1.params.src) ∧ (s.move l).high (f l.1.params.dst)) ∧
          s.Timely l.1 at') := by
        rw [← hleg]
        rintro ⟨ks, t', hok⟩
        rw [hx] at hok
        cases hok
      constructor
      · intro h
        cases h
      · rintro ⟨⟨hguard, -⟩, htime, -⟩
        exact absurd ⟨hguard, htime⟩ hno
    · obtain ⟨hguard, htime⟩ := hleg.mp ⟨ks, t₁, hx⟩
      rw [ih ats (hnext ks t₁ hx) (Nat.succ.inj hlen) hats.2
        fun l' hl' => hp l' (mem_cons_of_mem _ hl')]
      constructor
      · rintro ⟨hrest, htimes⟩
        exact ⟨⟨hguard, hrest⟩, htime, htimes⟩
      · rintro ⟨⟨-, hrest⟩, -, htimes⟩
        exact ⟨hrest, htimes⟩

end

/-! ### Attending an instance -/

namespace Site

/-- `Reserve` for every leg, pessimistically; `none` if one is refused. -/
def reserveAll (txn : String) (deadline : Int) : Site → List BalLeg → Option (List Claim × Site)
  | s, [] => some ([], s)
  | s, l :: legs =>
    match s.reserve s.tenant l.params txn l.participantId deadline .pessimistic with
    | (.error _, _) => none
    | (.ok c, s) =>
      match reserveAll txn deadline s legs with
      | none => none
      | some (cs, s) => some (c :: cs, s)

/-- `Validate` for every claim; `none` if one is refused. -/
def validateAll : Site → List Claim → Option Site
  | s, [] => some s
  | s, c :: cs =>
    match s.validate c with
    | (.error _, _) => none
    | (.ok _, s) => validateAll s cs

/-- The instance is attended: its claims, and the site before execution.  Nobody else
acts in between, and no claim lapses. -/
def attend (s : Site) (txn : String) (deadline : Int) (legs : List BalLeg) :
    Option (List Claim × Site) :=
  match s.reserveAll txn deadline legs with
  | none => none
  | some (cs, s) => (s.validateAll cs).map fun s => (cs, s)

/-- Only the cache, the stash and the record of claims differ. -/
structure SameBooks (s s' : Site) : Prop where
  tables : s'.tables = s.tables
  sealer : s'.sealer = s.sealer
  tenant : s'.tenant = s.tenant
  now : s'.now = s.now

theorem SameBooks.trans {s s' s'' : Site} (h : SameBooks s s') (h' : SameBooks s' s'') :
    SameBooks s s'' :=
  ⟨h'.tables.trans h.tables, h'.sealer.trans h.sealer, h'.tenant.trans h.tenant, h'.now.trans h.now⟩

variable {s s' : Site} {txn : String} {deadline : Int} {legs : List BalLeg}

/-- The legs have been reserved: the claims are theirs, and their transfers are stashed. -/
structure Reserved (s : Site) (txn : String) (deadline : Int) (legs : List BalLeg)
    (claims : List Claim) (s' : Site) : Prop extends SameBooks s s' where
  claims_eq : claims = legs.map fun l => l.claim s.tenant txn deadline
  valid : ∀ l ∈ legs, l.Valid
  frame : ∀ k, (∀ l ∈ legs, pendingKey txn l.participantId ≠ k) → s'.pending k = s.pending k
  stashed : (legs.map BalLeg.participantId).Nodup → ∀ l ∈ legs,
    ∃ p, s'.pending (pendingKey txn l.participantId) = some p ∧ p.toTransferParams = l.params

theorem pendingKey_inj {txn a b : String} : pendingKey txn a = pendingKey txn b ↔ a = b := by
  simp [pendingKey]

variable {claims : List Claim}

theorem reserveAll_spec (wf : WellFormed s.tables)
    (h : s.reserveAll txn deadline legs = some (claims, s')) :
    Reserved s txn deadline legs claims s' := by
  induction legs generalizing s claims with
  | nil =>
    cases h
    exact ⟨⟨rfl, rfl, rfl, rfl⟩, rfl, by simp, fun _ _ => rfl, by simp⟩
  | cons l legs ih =>
    unfold reserveAll at h
    split at h
    · cases h
    next c s₁ hr =>
    obtain ⟨hpos, hne, -, -, hc, rfl⟩ := reserve_spec hr wf
    split at h
    · cases h
    next cs s₂ hrest =>
    obtain ⟨rfl, rfl⟩ := Prod.mk.inj (Option.some.inj h)
    have hkey : claimKey c = pendingKey txn l.participantId := by rw [hc]; rfl
    obtain ⟨hbooks, hclaims, hvalid, hframe, hstash⟩ := ih (s := s.issue c l.params) wf hrest
    have hissue : SameBooks s (s.issue c l.params) := ⟨rfl, rfl, rfl, rfl⟩
    refine ⟨hissue.trans hbooks, ?_, ?_, ?_, ?_⟩
    · rw [map_cons, hclaims, hc]
      rfl
    · exact forall_mem_cons.mpr ⟨⟨hpos, hne⟩, hvalid⟩
    · intro k hk
      rw [forall_mem_cons] at hk
      rw [hframe k hk.2]
      simp only [issue, stash, hkey]
      exact update_of_ne hk.1.symm _ _
    · intro hnd
      rw [map_cons, nodup_cons] at hnd
      rw [forall_mem_cons]
      refine ⟨?_, hstash hnd.2⟩
      have hother : ∀ l' ∈ legs, pendingKey txn l'.participantId ≠ pendingKey txn l.participantId :=
        fun l' hl' hk => hnd.1 (pendingKey_inj.mp hk ▸ mem_map_of_mem hl')
      rw [hframe _ hother]
      refine ⟨⟨l.params, s.claimed l.params.src, s.claimed l.params.dst⟩, ?_, rfl⟩
      simp only [issue, stash, hkey, update_self]

/-- A pessimistic claim that validates gets the claim sums of the moment, its own amount
taken off. -/
theorem validate_ok {l : BalLeg} {p : PendingTransfer} {u : Unit}
    (hp : s.pending (pendingKey txn l.participantId) = some p) (hl : p.toTransferParams = l.params)
    (h : s.validate (l.claim s.tenant txn deadline) = (.ok u, s')) :
    s' = s.stash (pendingKey txn l.participantId) (some (s.stashOf l)) := by
  have hkey : claimKey (l.claim s.tenant txn deadline) = pendingKey txn l.participantId := rfl
  unfold validate at h
  split at h
  · next hw => cases hw
  dsimp only at h
  split at h
  · cases h
  split at h
  · cases h
  split at h
  · cases h
  rw [hkey, hp] at h
  obtain ⟨tp, src, dst⟩ := p
  subst hl
  exact (Prod.mk.inj h).2.symm

theorem validateAll_spec (hnd : (legs.map BalLeg.participantId).Nodup)
    (hp : ∀ l ∈ legs, ∃ p, s.pending (pendingKey txn l.participantId) = some p ∧
      p.toTransferParams = l.params)
    (h : s.validateAll (legs.map fun l => l.claim s.tenant txn deadline) = some s') :
    SameBooks s s' ∧ s'.cache = s.cache ∧
      (∀ k, (∀ l ∈ legs, pendingKey txn l.participantId ≠ k) → s'.pending k = s.pending k) ∧
      ∀ l ∈ legs, s'.pending (pendingKey txn l.participantId) = some (s.stashOf l) := by
  induction legs generalizing s with
  | nil =>
    cases h
    exact ⟨⟨rfl, rfl, rfl, rfl⟩, rfl, fun _ _ => rfl, by simp⟩
  | cons l legs ih =>
    rw [map_cons, nodup_cons] at hnd
    rw [map_cons] at h
    unfold validateAll at h
    split at h
    · cases h
    next u s₁ hv =>
    obtain ⟨p, hpl, hparams⟩ := hp l mem_cons_self
    obtain rfl := validate_ok hpl hparams hv
    have hother : ∀ l' ∈ legs, pendingKey txn l'.participantId ≠ pendingKey txn l.participantId :=
      fun l' hl' hk => hnd.1 (pendingKey_inj.mp hk ▸ mem_map_of_mem hl')
    obtain ⟨hbooks, hcache, hframe, hstash⟩ :=
      ih (s := s.stash (pendingKey txn l.participantId) (some (s.stashOf l))) hnd.2
        (fun l' hl' => by
          simp only [stash, update_of_ne (hother l' hl')]
          exact hp l' (mem_cons_of_mem _ hl')) h
    refine ⟨⟨hbooks.tables, hbooks.sealer, hbooks.tenant, hbooks.now⟩, hcache, ?_, ?_⟩
    · intro k hk
      rw [forall_mem_cons] at hk
      rw [hframe k hk.2]
      simp only [stash, update_of_ne hk.1.symm]
    · rw [forall_mem_cons]
      refine ⟨?_, hstash⟩
      rw [hframe _ hother]
      simp only [stash, update_self]

/-- What attending an instance leaves: the tables as they were, and a stash for each leg. -/
theorem attend_spec (wf : WellFormed s.tables) (hnd : (legs.map BalLeg.participantId).Nodup)
    (h : s.attend txn deadline legs = some (claims, s')) :
    s'.tables = s.tables ∧ (∀ l ∈ legs, l.Valid) ∧
      claims = legs.map (fun l => l.claim s'.tenant txn deadline) ∧
      ∀ l ∈ legs, s'.pending (claimKey (l.claim s'.tenant txn deadline)) = some (s'.stashOf l) := by
  unfold attend at h
  split at h
  · cases h
  next cs s₁ hr =>
  obtain ⟨s₂, hv, heq⟩ := Option.map_eq_some_iff.mp h
  obtain ⟨rfl, rfl⟩ := Prod.mk.inj heq
  have R := reserveAll_spec wf hr
  have hclaims := R.claims_eq
  rw [← R.tenant] at hclaims
  rw [hclaims] at hv
  obtain ⟨hbooks, hcache, -, hstash⟩ := validateAll_spec hnd (R.stashed hnd) hv
  refine ⟨hbooks.tables.trans R.tables, R.valid, ?_, ?_⟩
  · rw [hbooks.tenant, hclaims]
  · intro l hl
    have hsame : s₂.stashOf l = s₁.stashOf l := by
      simp only [stashOf, claimed, hcache, hbooks.now, hbooks.tenant]
    rw [hsame]
    exact hstash l hl

end Site

/-! ### Every order -/

/-- What the legs debit from an account. -/
def debitsOf (legs : List BalLeg) (id : String) : Int :=
  (legs.map fun l => if l.params.src = id then l.params.amount else 0).sum

/-- What the legs credit to an account. -/
def creditsOf (legs : List BalLeg) (id : String) : Int :=
  (legs.map fun l => if l.params.dst = id then l.params.amount else 0).sum

/-- The debit guard of a leg holds after the other debits of its account, with the claims
on the account, less the leg's own, still counted. -/
def Site.CanDebit (s : Site) (legs : List BalLeg) (l : BalLeg) : Prop :=
  let v := s.tables.valueAt l.params.src - (debitsOf legs l.params.src - l.params.amount)
  s.tables.Accepts l.params.src
      (floorBound l.params.amount (wrap (s.claimed l.params.src - l.params.amount))) v ∧
    InRange (v - l.params.amount)
deriving Decidable

/-- The credit guard of a leg holds after the other credits of its account. -/
def Site.CanCredit (s : Site) (legs : List BalLeg) (l : BalLeg) : Prop :=
  let v := s.tables.valueAt l.params.dst + (creditsOf legs l.params.dst - l.params.amount)
  s.tables.Accepts l.params.dst (ceilingBound l.params.amount (s.claimed l.params.dst)) v ∧
    InRange (v + l.params.amount)
deriving Decidable

/-- Every leg can be executed at each of the instants, as the last of its competitors. -/
def Site.Executable (s : Site) (legs : List BalLeg) (ats : List Int) : Prop :=
  ∀ l ∈ legs, (∀ at' ∈ ats, s.Timely l at') ∧ s.CanDebit legs l ∧ s.CanCredit legs l
deriving Decidable

theorem Tables.Arrives.mono {t : Tables} {id : String} {at₀ at' : Int} (h : t.Arrives id at₀)
    (hle : at₀ ≤ at') : t.Arrives id at' := by
  intro a ha
  apply (h a ha).imp_right
  simp only [laterEntry, any_eq_false, Bool.and_eq_true, decide_eq_true_eq]
  intro hno e he hlater
  exact hno e he ⟨hlater.1, hle.trans_lt hlater.2⟩

theorem Site.passesLast_iff (s : Site) (legs : List ValidLeg)
    (l : ValidLeg) : (s.move l).PassesLast s.tables.valueAt (legs.map s.move) ↔
      s.CanDebit (legs.map Subtype.val) l.1 ∧ s.CanCredit (legs.map Subtype.val) l.1 := by
  have hd : ∀ k, debits (legs.map s.move) k = debitsOf (legs.map Subtype.val) k := by
    intro k
    simp only [debits, debitsOf, map_map]
    rfl
  have hc : ∀ k, credits (legs.map s.move) k = creditsOf (legs.map Subtype.val) k := by
    intro k
    simp only [credits, creditsOf, map_map]
    rfl
  simp only [Move.PassesLast, hd, hc]
  rfl

/-- Executing legs at given instants, in terms of their moves. -/
theorem Site.execute_isOk_iff {s : Site} (wf : WellFormed s.tables) (claim : BalLeg → Claim)
    (o : List ValidLeg) (ats : List Int) (hlen : ats.length = o.length)
    (hats : ats.Pairwise (· ≤ ·))
    (hp : ∀ l ∈ o, s.pending (claimKey (claim l.1)) = some (s.stashOf l.1)) :
    (s.execute ((o.map fun l => claim l.1).zip ats)).1.isOk = true ↔
      Passes s.tables.valueAt (o.map s.move) ∧ ∀ q ∈ o.zip ats, s.Timely q.1.1 q.2 := by
  obtain ⟨since, hsince⟩ : ∃ since, (since :: ats).Pairwise (· ≤ ·) := by
    rcases ats with _ | ⟨at₀, ats⟩
    · exact ⟨0, by simp⟩
    · refine ⟨at₀, pairwise_cons.mpr ⟨?_, hats⟩⟩
      exact forall_mem_cons.mpr ⟨le_rfl, (pairwise_cons.mp hats).1⟩
  rw [execute_isOk]
  exact executeLegs_iff o ats ⟨wf, rfl, fun _ => rfl, fun _ _ _ => rfl⟩ hlen hsince hp

/-- Legs that are timely in every order are timely at every instant: each of them may
come first, and some leg comes at each instant. -/
theorem Site.timely_of_orders {s : Site} {legs : List ValidLeg} {ats : List Int}
    (hlen : ats.length = legs.length) (hats : ats.Pairwise (· ≤ ·))
    (h : ∀ o : List ValidLeg, o.Perm legs → ∀ q ∈ o.zip ats, s.Timely q.1.1 q.2) :
    ∀ l ∈ legs, ∀ at' ∈ ats, s.Timely l.1 at' := by
  intro l hl at' hat
  obtain ⟨l₁, l₂, rfl⟩ := append_of_mem hl
  rcases ats with _ | ⟨at₀, ats⟩
  · cases hat
  have hfirst : s.Timely l.1 at₀ := h (l :: (l₁ ++ l₂)) perm_middle.symm (l, at₀) (by simp)
  have hle : at₀ ≤ at' := by
    rcases mem_cons.mp hat with rfl | hmem
    · exact le_rfl
    · exact (pairwise_cons.mp hats).1 at' hmem
  obtain ⟨q, hq, rfl⟩ : ∃ q ∈ (l₁ ++ l :: l₂).zip (at₀ :: ats), q.2 = at' := by
    have hsnd : ((l₁ ++ l :: l₂).zip (at₀ :: ats)).map Prod.snd = at₀ :: ats := map_snd_zip hlen.le
    rw [← hsnd] at hat
    exact mem_map.mp hat
  exact ⟨(h _ (List.Perm.refl _) q hq).1, hfirst.2.1.mono hle, hfirst.2.2.mono hle⟩

/-- **Attended instances.**  From every reachable site, an instance whose legs have all
been reserved and validated executes in every order, at any instants that do not go
backwards, iff each leg can be executed as the last of its competitors. -/
theorem attended_executes_iff (tenant : String) (sealer : Option Sealer) (now : Int)
    (cmds : List SiteCmd) (txn : String) (deadline : Int) (legs : List BalLeg) (ats : List Int)
    (claims : List Claim) (s : Site) (hnd : (legs.map BalLeg.participantId).Nodup)
    (hattend : (run Site.step (Site.init tenant sealer now) cmds).attend txn deadline legs
      = some (claims, s)) (hlen : ats.length = legs.length) (hats : ats.Pairwise (· ≤ ·)) :
    (∀ order : List Claim, order.Perm claims → (s.execute (order.zip ats)).1.isOk = true) ↔
      s.Executable legs ats := by
  have C := (Site.consistent_run tenant sealer now cmds).tables
  obtain ⟨htables, hvalid, hclaims, hstash⟩ := Site.attend_spec C.wellFormed hnd hattend
  rw [← htables] at C
  lift legs to List ValidLeg using hvalid
  rw [length_map] at hlen
  have hrange : ∀ id, -9223372036854775808 ≤ s.tables.valueAt id ∧
      s.tables.valueAt id ≤ 9223372036854775807 := C.valueAt_inRange
  -- an order of the claims is an order of the legs
  have horder : ∀ o : List ValidLeg, o.Perm legs →
      ((s.execute ((o.map fun l => l.1.claim s.tenant txn deadline).zip ats)).1.isOk = true ↔
        Passes s.tables.valueAt (o.map s.move) ∧ ∀ q ∈ o.zip ats, s.Timely q.1.1 q.2) := by
    intro o ho
    apply Site.execute_isOk_iff C.wellFormed (fun l => l.claim s.tenant txn deadline) o ats
      (hlen.trans ho.length_eq.symm) hats
    intro l hl
    exact hstash l.1 (mem_map_of_mem (ho.subset hl))
  constructor
  · intro h
    have hall : ∀ o : List ValidLeg, o.Perm legs →
        Passes s.tables.valueAt (o.map s.move) ∧ ∀ q ∈ o.zip ats, s.Timely q.1.1 q.2 := by
      intro o ho
      apply (horder o ho).mp
      apply h
      rw [hclaims, map_map]
      exact ho.map _
    have hlast := (passes_perm_iff s.move legs hrange).mp fun o ho => (hall o ho).1
    have htime := Site.timely_of_orders hlen hats fun o ho => (hall o ho).2
    intro _ hmem
    obtain ⟨l, hl, rfl⟩ := mem_map.mp hmem
    exact ⟨htime l hl, (s.passesLast_iff legs l).mp (hlast l hl)⟩
  · intro h order horder'
    rw [hclaims, map_map] at horder'
    obtain ⟨o, ho, rfl⟩ := exists_perm_of_perm_map horder'
    apply (horder o ho).mpr
    constructor
    · apply (passes_perm_iff s.move legs hrange).mpr _ o ho
      intro l hl
      exact (s.passesLast_iff legs l).mpr (h l.1 (mem_map_of_mem hl)).2
    · intro q hq
      obtain ⟨hl, hat⟩ := of_mem_zip hq
      exact (h q.1.1 (mem_map_of_mem (ho.subset hl))).1 q.2 hat

/-- Two line items of one payer. -/
def lineItems (first second : Int) : List BalLeg :=
  [⟨⟨"payer", "payee", first, ""⟩, "first"⟩, ⟨⟨"payer", "bank", second, ""⟩, "second"⟩]

/-- The payer has 1000; two items of 200 and 300 execute in both orders. -/
theorem lineItems_execute :
    ∃ claims s, (run Site.step (Site.init "t1" none 0) fundedSite).attend "T1" 100
        (lineItems 200 300) = some (claims, s) ∧
      ∀ order : List Claim, order.Perm claims → (s.execute (order.zip [2, 3])).1.isOk = true := by
  have hsome : ((run Site.step (Site.init "t1" none 0) fundedSite).attend "T1" 100
      (lineItems 200 300)).isSome = true := by decide
  refine ⟨_, _, (Option.some_get hsome).symm, ?_⟩
  exact (attended_executes_iff "t1" none 0 fundedSite "T1" 100 (lineItems 200 300) [2, 3] _ _
    (by decide) (Option.some_get hsome).symm rfl (by decide)).mpr (by decide)

/-- Two items of 500 are reserved and validated, and then the second to be executed is
refused, in either order. -/
theorem lineItems_refused :
    ((run Site.step (Site.init "t1" none 0) fundedSite).attend "T1" 100
        (lineItems 500 500)).map (fun (claims, s) =>
          ((s.execute (claims.zip [2, 3])).1, (s.execute (claims.reverse.zip [2, 3])).1))
      = some (.error (.bounds "payer" .floor), .error (.bounds "payer" .floor)) := by
  decide

end Xolu.Bal
