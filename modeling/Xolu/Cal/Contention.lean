/-
# Days of the index under contention (pkg/cal/store.go, pkg/cal/lifecycle.go)

An addition reads the days of a booking one by one and commits them with its quanta set; a
removal reads the records and commits the days of a booking anew.  There is no lock from the
reads to the commit, so a commit can undo what another call has committed in between, and
an addition can come after the removal that should have taken it back
(`lost_quanta_of_two_creations`).

`Orderly` is the order that such a lock would bring about.  `Inv` is what holds between the
steps of orderly calls: what a record occupies is in the index or some call still has to add
it, and what the index has beyond the records some call still has to remove.
-/
import Xolu.Cal.Calls

namespace Xolu.Cal

open Function List Keyed Derived Runs Lifecycle IndexStore Source Booking

namespace Task

/-- The booking that the call still has to add to the index. -/
def adding : Task → Option (String × String)
  | .add b | .apply b _ _ _ _ | .remove b _ true | .recompute b _ _ _ _ true => some b.key
  | .reread cal id => some (cal, id)
  | _ => none

/-- The days of a removal that has not been committed. -/
def clearing (ords : String → Option Nat) : Task → List Key
  | .remove b plane _ =>
    match ords b.calendarID, spanDays b.extendedSpan with
    | some ord, .ok days => (days.map DayOccupancy.dayNanos).map (Key.mk ord plane)
    | _, _ => []
  | .recompute _ ord plane scope _ _ => scope.map (Key.mk ord plane)
  | _ => []

/-- The days that the call has read, or recomputed, for a batch that has not been committed. -/
def held : Task → List Key
  | .recompute _ ord plane scope _ _ => scope.map (Key.mk ord plane)
  | .apply _ ord plane read _ => read.map fun x => ⟨ord, plane, x.1.dayNanos⟩
  | _ => []

/-- The days of the batch that the next step of the call commits. -/
def commits : Task → List Key
  | t@(.recompute ..) | t@(.apply _ _ _ _ []) => t.held
  | _ => []

end Task

namespace Race

variable {n : Nat}

/-- The step is in order.  A creation writes a record under a new key and with instants within
reach; a transition does not write while another call still has the booking to add; and a
batch is not committed to a day that another call has read for its own batch. -/
def Orderly (s : Race n) : RaceCmd n → Prop
  | .call _ _ => True
  | .run i =>
    match s.tasks i with
    | .put b => (∀ r ∈ s.life.src.bookings, r.key ≠ b.key) ∧ b.InReach
    | .swap b _ => ∀ j ≠ i, (s.tasks j).adding ≠ some b.key
    | t => ∀ j ≠ i, ∀ k ∈ t.commits, k ∉ (s.tasks j).held

instance (s : Race n) : DecidablePred s.Orderly
  | .call _ _ => .isTrue trivial
  | .run i => by
    unfold Orderly
    dsimp only
    split <;> infer_instance

end Race

/-- The call is one of the lifecycle; an execution leaves the index to `PostCommit`. -/
def RaceCmd.OfLifecycle {n : Nat} : RaceCmd n → Prop
  | .call _ (.execute _) => False
  | _ => True

instance {n : Nat} : DecidablePred (RaceCmd.OfLifecycle (n := n)) := fun c => by
  unfold RaceCmd.OfLifecycle
  split <;> infer_instance

/-! ### What holds between the steps -/

/-- A record covers what the booking covers. -/
def Source.Matches (s : Source) (b : Booking) : Prop :=
  ∃ r ∈ s.bookings, r.key = b.key ∧ r.occupancySpan = b.occupancySpan

/-- A record is the booking, but for its state. -/
def Source.Holds (s : Source) (b : Booking) : Prop := ∃ st, { b with state := st } ∈ s.bookings

variable {n : Nat} {src src' : Source} {f f' : Key → DayBitmap} {tasks : Fin n → Task} {t t' : Task}
  {b : Booking} {i j : Fin n}

/-- What a call relies on, when some records are still to be added by a call and some days are
still to be cleared by another. -/
def Task.Sound (src : Source) (f : Key → DayBitmap) (owed : Booking → Prop)
    (cleared : Key → Prop) : Task → Prop
  | .execute _ => False
  | .check b after | .swap b after => src.Holds b ∧ allowedTransition b.state after = true
  | .remove b plane _ => b.state.occupiesPlane = some plane ∧ Expands src.ordinals b
  | .recompute _ ord plane scope acc _ =>
    scope.Nodup ∧
      (∀ r ∈ src.bookings, owed r ∨
        ∀ day ∈ scope, contrib src.ordinals r ⟨ord, plane, day⟩ ≤ acc day) ∧
      ∀ day ∈ scope, cleared ⟨ord, plane, day⟩ ∨
        acc day ≤ total (contrib src.ordinals) src.bookings ⟨ord, plane, day⟩
  | .add b => src.Matches b
  | .apply b ord plane read todo =>
    src.Matches b ∧ src.ordinals b.calendarID = some ord ∧ b.state.occupiesPlane = some plane ∧
      spanDays b.extendedSpan = .ok (read.map Prod.fst ++ todo) ∧
      ∀ x ∈ read, x.2 = f ⟨ord, plane, x.1.dayNanos⟩
  | _ => True

/-- What a call relies on survives a step of another call. -/
theorem Task.Sound.frame {owed owed' : Booking → Prop} {cleared cleared' : Key → Prop}
    (h : t.Sound src f owed cleared) (hords : src'.ordinals = src.ordinals)
    (hholds : ∀ b, src.Holds b → src'.Holds b)
    (hmatches : ∀ b, t.adding = some b.key → src.Matches b → src'.Matches b)
    (hheld : ∀ k ∈ t.held, f' k = f k)
    (howed : ∀ r' ∈ src'.bookings, owed' r' ∨ (∀ k ∈ t.held, contrib src.ordinals r' k = ⊥) ∨
      ∃ r ∈ src.bookings, ¬ owed r ∧ ∀ k, contrib src.ordinals r' k = contrib src.ordinals r k)
    (hcleared : ∀ k ∈ t.held, cleared k → cleared' k)
    (htotal : ∀ k ∈ t.held, cleared' k ∨ total (contrib src.ordinals) src.bookings k ≤
      total (contrib src.ordinals) src'.bookings k) : t.Sound src' f' owed' cleared' := by
  cases t with
  | check b after | swap b after => exact ⟨hholds b h.1, h.2⟩
  | remove b plane readd => exact ⟨h.1, hords ▸ h.2⟩
  | recompute b ord plane scope acc readd =>
    obtain ⟨hnd, hrec, hacc⟩ := h
    have hmem : ∀ day ∈ scope, (⟨ord, plane, day⟩ : Key) ∈ scope.map (Key.mk ord plane) :=
      fun day hday => mem_map.mpr ⟨day, hday, rfl⟩
    refine ⟨hnd, fun r' hr' => ?_, fun day hday => ?_⟩
    · rw [hords]
      rcases howed r' hr' with howed' | hbot | ⟨r, hr, hnot, hsame⟩
      · exact .inl howed'
      · exact .inr fun day hday => (hbot _ (hmem day hday)).trans_le bot_le
      · refine .inr fun day hday => ?_
        rw [hsame]
        exact (hrec r hr).resolve_left hnot day hday
    · rw [hords]
      rcases htotal _ (hmem day hday) with hc | hle
      · exact .inl hc
      · exact (hacc day hday).imp (hcleared _ (hmem day hday)) fun h' => h'.trans hle
  | add b => exact hmatches b rfl h
  | apply b ord plane read todo =>
    obtain ⟨hm, hord, hplane, hdays, hread⟩ := h
    refine ⟨hmatches b rfl hm, hords ▸ hord, hplane, hdays, fun x hx => ?_⟩
    rw [hread x hx]
    exact (hheld _ (mem_map.mpr ⟨x, hx, rfl⟩)).symm
  | execute b => exact h
  | create | put | transition | reread | returned => trivial

namespace Race

/-- A call has the record to add. -/
def Owed (tasks : Fin n → Task) (r : Booking) : Prop := ∃ i, (tasks i).adding = some r.key

/-- A call other than this one has the day to clear. -/
def Cleared (ords : String → Option Nat) (tasks : Fin n → Task) (i : Fin n) (k : Key) : Prop :=
  ∃ j, j ≠ i ∧ k ∈ (tasks j).clearing ords

/-- **The invariant.** -/
structure Inv (src : Source) (f : Key → DayBitmap) (tasks : Fin n → Task) : Prop where
  expands : ∀ r ∈ src.bookings, Expands src.ordinals r
  sound : ∀ i, (tasks i).Sound src f (Owed tasks) (Cleared src.ordinals tasks i)
  /-- What a record occupies is in the index, or a call has it to add. -/
  kept : ∀ r ∈ src.bookings, Owed tasks r ∨ ∀ k, contrib src.ordinals r k ≤ f k
  /-- What the index has is occupied by records, or a call has the day to clear. -/
  clean : ∀ k, (∃ j, k ∈ (tasks j).clearing src.ordinals) ∨
    f k ≤ total (contrib src.ordinals) src.bookings k

section update

variable {r : Booking} {k : Key} {ords : String → Option Nat}

/-- What holds of some call holds of some call after the step of one. -/
theorem exists_update (P : Fin n → Task → Prop) (h : ∃ j, P j (tasks j))
    (hi : P i (tasks i) → P i t') : ∃ j, P j (update tasks i t' j) := by
  obtain ⟨j, hj⟩ := h
  refine ⟨j, ?_⟩
  rcases eq_or_ne j i with rfl | hne
  · rw [update_self]
    exact hi hj
  · rwa [update_of_ne hne]

theorem Owed.update (h : Owed tasks r)
    (hi : (tasks i).adding = some r.key → t'.adding = some r.key) : Owed (update tasks i t') r :=
  exists_update (fun _ t => t.adding = some r.key) h hi

theorem owed_of_adding (h : t'.adding = some r.key) : Owed (update tasks i t') r :=
  ⟨i, by rwa [update_self]⟩

theorem clearing_update (h : ∃ j, k ∈ (tasks j).clearing ords)
    (hi : k ∈ (tasks i).clearing ords → k ∈ t'.clearing ords) :
    ∃ j, k ∈ (update tasks i t' j).clearing ords :=
  exists_update (fun _ t => k ∈ t.clearing ords) h hi

theorem Cleared.update (h : Cleared ords tasks j k)
    (hi : k ∈ (tasks i).clearing ords → k ∈ t'.clearing ords) :
    Cleared ords (update tasks i t') j k :=
  exists_update (fun m t => m ≠ j ∧ k ∈ t.clearing ords) h (And.imp_right hi)

end update

/-- A step of one call, put together from what it is for the call and for the others. -/
theorem Inv.of_update (hexp : ∀ r ∈ src'.bookings, Expands src'.ordinals r)
    (hself : t'.Sound src' f' (Owed (update tasks i t'))
      (Cleared src'.ordinals (update tasks i t') i))
    (hothers : ∀ j ≠ i, (tasks j).Sound src' f' (Owed (update tasks i t'))
      (Cleared src'.ordinals (update tasks i t') j))
    (hkept : ∀ r ∈ src'.bookings, Owed (update tasks i t') r ∨
      ∀ k, contrib src'.ordinals r k ≤ f' k)
    (hclean : ∀ k, (∃ j, k ∈ (update tasks i t' j).clearing src'.ordinals) ∨
      f' k ≤ total (contrib src'.ordinals) src'.bookings k) :
    Inv src' f' (update tasks i t') where
  expands := hexp
  sound := (forall_update_iff tasks fun m t => t.Sound src' f'
    (Owed (update tasks i t'))
    (Cleared src'.ordinals (update tasks i t') m)).mpr ⟨hself, hothers⟩
  kept := hkept
  clean := hclean

variable {ords : String → Option Nat}

theorem clearing_of_nil (h : t.clearing ords = []) :
    ∀ k ∈ t.clearing ords, k ∈ t'.clearing ords := by
  rw [h]
  exact nil_subset _

/-- **A step that writes nothing.** -/
theorem Inv.relocate (h : Inv src f tasks) (hi : tasks i = t)
    (hself : t'.Sound src f (Owed (update tasks i t')) (Cleared src.ordinals (update tasks i t') i))
    (hadd : ∀ r ∈ src.bookings, t.adding = some r.key →
      t'.adding = some r.key ∨ ∀ k, contrib src.ordinals r k = ⊥)
    (hclear : ∀ k ∈ t.clearing src.ordinals, k ∈ t'.clearing src.ordinals) :
    Inv src f (update tasks i t') := by
  subst hi
  have howed : ∀ r ∈ src.bookings, Owed tasks r →
      Owed (update tasks i t') r ∨ ∀ k, contrib src.ordinals r k = ⊥ := by
    rintro r hr howed
    by_cases hi : (tasks i).adding = some r.key
    · exact (hadd r hr hi).imp owed_of_adding id
    · exact .inl (howed.update fun hi' => absurd hi' hi)
  refine .of_update h.expands hself (fun j hj => ?_) (fun r hr => ?_) fun k => ?_
  · refine (h.sound j).frame rfl (fun _ hb => hb) (fun _ _ hb => hb) (fun _ _ => rfl)
      (fun r hr => ?_) (fun k _ hk => hk.update (hclear k)) fun _ _ => .inr le_rfl
    by_cases hr' : Owed tasks r
    · exact (howed r hr hr').imp id fun hbot => .inl fun k _ => hbot k
    · exact .inr (.inr ⟨r, hr, hr', fun _ => rfl⟩)
  · rcases h.kept r hr with hr' | hle
    · exact (howed r hr hr').imp id fun hbot k => (hbot k).trans_le bot_le
    · exact .inr hle
  · exact (h.clean k).imp (fun hk => clearing_update hk (hclear k)) id

/-- A call that has nothing to add or to clear and has written nothing may go anywhere. -/
theorem Inv.relocate_idle (h : Inv src f tasks) (hi : tasks i = t) (hadd : t.adding = none)
    (hclear : t.clearing src.ordinals = []) (hself : t'.Sound src f (Owed (update tasks i t'))
      (Cleared src.ordinals (update tasks i t') i)) : Inv src f (update tasks i t') :=
  h.relocate hi hself (fun r _ hr => by rw [hadd] at hr; cases hr) (clearing_of_nil hclear)

/-! ### Record writes -/

/-- **A record write.**  A record covers what it covered under its key before, or it occupies
nothing, or the call has it to add; and where less is occupied the call has the day to clear. -/
theorem Inv.write (h : Inv src f tasks) (hi : tasks i = t) (hadd : t.adding = none)
    (hclear : t.clearing src.ordinals = []) (hords : src'.ordinals = src.ordinals)
    (hexp : ∀ r ∈ src'.bookings, Expands src.ordinals r)
    (hself : t'.Sound src' f (Owed (update tasks i t'))
      (Cleared src'.ordinals (update tasks i t') i)) (hholds : ∀ b, src.Holds b → src'.Holds b)
    (hmatches : ∀ j ≠ i, ∀ b, (tasks j).adding = some b.key → src.Matches b → src'.Matches b)
    (hrecord : ∀ r' ∈ src'.bookings, t'.adding = some r'.key ∨
      (∀ k, contrib src.ordinals r' k = ⊥) ∨
      ∃ r ∈ src.bookings, r.key = r'.key ∧
        ∀ k, contrib src.ordinals r' k = contrib src.ordinals r k)
    (hlost : ∀ k, k ∈ t'.clearing src.ordinals ∨ total (contrib src.ordinals) src.bookings k ≤
      total (contrib src.ordinals) src'.bookings k) : Inv src' f (update tasks i t') := by
  subst hi
  have howed : ∀ r r' : Booking, r.key = r'.key → Owed tasks r → Owed (update tasks i t') r' := by
    intro r r' hkey hr
    unfold Owed at hr
    rw [hkey] at hr
    exact Owed.update hr fun hi => by rw [hadd] at hi; cases hi
  have hclear' : ∀ k ∈ (tasks i).clearing src.ordinals, k ∈ t'.clearing src.ordinals :=
    clearing_of_nil hclear
  refine .of_update (hords ▸ hexp) hself (fun j hj => ?_) (fun r' hr' => ?_) fun k => ?_
  · rw [hords]
    refine (h.sound j).frame hords hholds (hmatches j hj) (fun _ _ => rfl) (fun r' hr' => ?_)
      (fun k _ hk => hk.update (hclear' k)) fun k _ => ?_
    · rcases hrecord r' hr' with hr' | hbot | ⟨r, hr, hkey, hsame⟩
      · exact .inl (owed_of_adding hr')
      · exact .inr (.inl fun k _ => hbot k)
      · by_cases hr' : Owed tasks r
        · exact .inl (howed r r' hkey hr')
        · exact .inr (.inr ⟨r, hr, hr', hsame⟩)
    · refine (hlost k).imp (fun hk => ⟨i, hj.symm, ?_⟩) id
      rwa [update_self]
  · rw [hords]
    rcases hrecord r' hr' with hr' | hbot | ⟨r, hr, hkey, hsame⟩
    · exact .inl (owed_of_adding hr')
    · exact .inr fun k => (hbot k).trans_le bot_le
    · exact (h.kept r hr).imp (howed r r' hkey) fun hle k => (hsame k).trans_le (hle k)
  · rw [hords]
    rcases hlost k with hk | hle
    · exact .inl ⟨i, by rwa [update_self]⟩
    · exact (h.clean k).imp (fun hk => clearing_update hk (hclear' k)) fun hk => hk.trans hle

/-- The record write of a creation: the call has the record to add, unless it occupies
nothing. -/
theorem Inv.put (h : Inv src f tasks) (hi : tasks i = .put b) (hacc : src.Accepts b)
    (hnew : ∀ r ∈ src.bookings, r.key ≠ b.key) (hr : b.InReach) :
    Inv (src.putRow { b with mode := .exclusive }.stored) f (update tasks i
      (if b.state.occupiesPlane.isSome then .add b else .returned (.ok ()))) := by
  have hmem : ∀ r, r ∈ (src.putRow { b with mode := .exclusive }.stored).bookings ↔
      r = { b with mode := .exclusive }.stored ∨ r ∈ src.bookings := by
    intro r
    rw [mem_putRow]
    exact or_congr_right (and_iff_left_of_imp fun hr' => hnew r hr')
  generalize hw : ({ b with mode := .exclusive } : Booking).stored = w at hmem ⊢
  have hspan : w.extendedSpan = b.extendedSpan := by
    rw [← hw]
    exact Booking.InReach.extendedSpan_stored (b := { b with mode := .exclusive }) hr
  have hkey : w.key = b.key := hw ▸ rfl
  have hcal : w.calendarID = b.calendarID := hw ▸ rfl
  have hst : w.state = b.state := hw ▸ rfl
  have hocc : w.occupancySpan = b.occupancySpan := by
    unfold occupancySpan
    rw [hspan, hst]
  refine h.write hi rfl rfl rfl (fun r hr' => ?_) ?_
    (fun b' ⟨st, hb'⟩ => ⟨st, (hmem _).mpr (.inr hb')⟩)
    (fun j _ b' _ ⟨r, hr', hb'⟩ => ⟨r, (hmem r).mpr (.inr hr'), hb'⟩) (fun r hr' => ?_)
    fun k => .inr (total_le_iff.mpr fun r hr' => le_total_of_mem ((hmem r).mpr (.inr hr')))
  · rcases (hmem r).mp hr' with rfl | hr'
    · exact (hr.expands hacc.span (exists_ordinals hacc.calendar)).congr hcal hspan
        fun hlive => hst ▸ hlive
    · exact h.expands r hr'
  · split
    · exact ⟨w, (hmem w).mpr (.inl rfl), hkey, hocc⟩
    · trivial
  · rcases (hmem r).mp hr' with rfl | hr'
    · split
      · exact .inl (congrArg some hkey.symm)
      · refine .inr (.inl fun k => contrib_of_none ?_ k)
        rw [hocc]
        exact occupancySpan_eq_none_iff.mpr (Option.not_isSome_iff_eq_none.mp ‹_›)
    · exact .inr (.inr ⟨r, hr', rfl, fun _ => rfl⟩)

/-- The three kinds of transitions: the record covers the same, or the call has the days of the
old record to clear, and the new one to add or it occupies nothing. -/
theorem follow_kinds {after : State} (hallowed : allowedTransition b.state after = true)
    (hexp : Expands src.ordinals b) :
    (∀ k, contrib src.ordinals { b with state := after } k = contrib src.ordinals b k) ∨
      ((Task.follow b after).adding = some b.key ∨
        ∀ k, contrib src.ordinals { b with state := after } k = ⊥) ∧
      ∀ k, k ∈ (Task.follow b after).clearing src.ordinals ∨ contrib src.ordinals b k = ⊥ := by
  obtain ⟨plane, hplane⟩ := Option.isSome_iff_exists.mp (occupiesPlane_of_allowed hallowed)
  obtain ⟨⟨ord, hord⟩, days, hdays⟩ := hexp _ _ (occupancySpan_eq_some_iff.mpr ⟨rfl, hplane⟩)
  have hclear : ∀ readd k, k ∈ (Task.remove b plane readd).clearing src.ordinals ∨
      contrib src.ordinals b k = ⊥ := by
    intro readd k
    unfold Task.clearing
    simp only [hord, hdays]
    by_cases hk : InScope ord plane days k
    · refine .inl (mem_map.mpr ⟨k.dayNanos, hk.2.2, ?_⟩)
      rw [← hk.1, ← hk.2.1]
    · exact .inr (contrib_of_not_inScope hplane hord hdays hk)
  unfold Task.follow
  rw [hplane]
  rcases hafter : after.occupiesPlane with - | plane'
  · refine .inr ⟨.inr fun k => ?_, hclear false⟩
    exact contrib_of_none (occupancySpan_eq_none_iff.mpr hafter) k
  · dsimp only
    split
    · exact .inr ⟨.inl rfl, hclear true⟩
    · rename_i hsame
      refine .inl fun k => ?_
      apply contrib_congr
      · rfl
      · rfl
      · rw [hplane, not_not.mp hsame]
        exact hafter

/-- The record write of a transition. -/
theorem Inv.swap (h : Inv src f tasks) {after : State} (hi : tasks i = .swap b after)
    (hb : b ∈ src.bookings) (hallowed : allowedTransition b.state after = true)
    (hnot : ∀ j ≠ i, (tasks j).adding ≠ some b.key) :
    Inv (src.updateRow { b with state := after }) f (update tasks i (Task.follow b after)) := by
  have hmem : ∀ r, r ∈ (src.updateRow { b with state := after }).bookings ↔
      r = { b with state := after } ∨ r ∈ src.bookings ∧ r.key ≠ b.key :=
    fun r => mem_updateRow hb rfl
  have hkinds := follow_kinds hallowed (h.expands b hb)
  refine h.write hi rfl rfl rfl (fun r hr => ?_) ?_ ?_ ?_ (fun r hr => ?_) fun k => ?_
  · rcases (hmem r).mp hr with rfl | ⟨hr, -⟩
    · exact (h.expands b hb).congr rfl rfl fun _ => occupiesPlane_of_allowed hallowed
    · exact h.expands r hr
  · unfold Task.follow
    split
    · split
      · exact ⟨‹_›, h.expands b hb⟩
      · trivial
    · exact ⟨‹_›, h.expands b hb⟩
    · trivial
    · trivial
  · rintro b' ⟨st, hb'⟩
    by_cases hkey : b'.key = b.key
    · refine ⟨after, (hmem _).mpr (.inl ?_)⟩
      rw [← src.uniqueBookings.eq_of_key hb' hb hkey]
    · exact ⟨st, (hmem _).mpr (.inr ⟨hb', hkey⟩)⟩
  · rintro j hj b' hadd ⟨r, hr, hkey, hocc⟩
    refine ⟨r, (hmem r).mpr (.inr ⟨hr, fun hrb => hnot j hj ?_⟩), hkey, hocc⟩
    rw [hadd, ← hkey, hrb]
  · rcases (hmem r).mp hr with rfl | ⟨hr, -⟩
    · rcases hkinds with hsame | ⟨hadd | hbot, -⟩
      · exact .inr (.inr ⟨b, hb, rfl, hsame⟩)
      · exact .inl hadd
      · exact .inr (.inl hbot)
    · exact .inr (.inr ⟨r, hr, rfl, fun _ => rfl⟩)
  · have hold : k ∈ (Task.follow b after).clearing src.ordinals ∨ contrib src.ordinals b k ≤
        total (contrib src.ordinals) (src.updateRow { b with state := after }).bookings k := by
      rcases hkinds with hsame | ⟨-, hclear⟩
      · refine .inr ?_
        rw [← hsame]
        exact le_total_of_mem ((hmem _).mpr (.inl rfl))
      · exact (hclear k).imp id fun hbot => hbot.trans_le bot_le
    refine hold.imp id fun hle => total_le_iff.mpr fun r hr => ?_
    by_cases hkey : r.key = b.key
    · rw [src.uniqueBookings.eq_of_key hr hb hkey]
      exact hle
    · exact le_total_of_mem ((hmem r).mpr (.inr ⟨hr, hkey⟩))

/-! ### Batches -/

/-- The index after the recomputed days have been committed. -/
theorem writeAll_recompute {scope : List Int} (hnd : scope.Nodup) (ord : Nat) (plane : Plane)
    (acc : Int → DayBitmap) : (of ords f).writeAll scope (fun day => ⟨ord, plane, day⟩) acc =
      of ords fun k => if k ∈ scope.map (Key.mk ord plane) then acc k.dayNanos else f k := by
  refine writeAll_of (hnd.map fun _ _ h => (Key.mk.injEq .. ▸ h).2.2) ?_ ?_
  · intro day hday
    rw [if_pos (mem_map.mpr ⟨day, hday, rfl⟩)]
  · intro k hk
    refine if_neg fun hmem => ?_
    obtain ⟨day, hday, hkey⟩ := mem_map.mp hmem
    exact hk day hday hkey

variable {plane : Plane}

/-- **The commit of a removal.** -/
theorem Inv.recompute (h : Inv src f tasks) {ord : Nat} {scope : List Int} {acc : Int → DayBitmap}
    {readd : Bool} (hi : tasks i = .recompute b ord plane scope acc readd)
    (hnot : ∀ j ≠ i, ∀ k ∈ (tasks i).held, k ∉ (tasks j).held) :
    Inv src (fun k => if k ∈ scope.map (Key.mk ord plane) then acc k.dayNanos else f k)
      (update tasks i (.removed b readd)) := by
  have hsound := h.sound i
  rw [hi] at hnot hsound
  obtain ⟨-, hrec, hacc⟩ := hsound
  have howed : ∀ r, Owed tasks r → Owed (update tasks i (.removed b readd)) r := by
    intro r hr
    refine hr.update fun hadd => ?_
    rw [hi] at hadd
    cases readd with
    | true => exact hadd
    | false => cases hadd
  have hcleared : ∀ j k, k ∉ scope.map (Key.mk ord plane) → Cleared src.ordinals tasks j k →
      Cleared src.ordinals (update tasks i (.removed b readd)) j k := by
    intro j k hk hc
    refine hc.update fun hclear => ?_
    rw [hi] at hclear
    exact absurd hclear hk
  refine .of_update h.expands ?_ (fun j hj => ?_) (fun r hr => ?_) fun k => ?_
  · cases readd <;> trivial
  · have hfree : ∀ k ∈ (tasks j).held, k ∉ scope.map (Key.mk ord plane) :=
      fun k hk hk' => hnot j hj k hk' hk
    refine (h.sound j).frame rfl (fun _ hb => hb) (fun _ _ hb => hb)
      (fun k hk => if_neg (hfree k hk)) (fun r hr => ?_)
      (fun k hk => hcleared j k (hfree k hk)) fun _ _ => .inr le_rfl
    by_cases hr' : Owed tasks r
    · exact .inl (howed r hr')
    · exact .inr (.inr ⟨r, hr, hr', fun _ => rfl⟩)
  · rcases h.kept r hr with hr' | hle
    · exact .inl (howed r hr')
    · refine (hrec r hr).imp (howed r) fun hday k => ?_
      split
      · rename_i hk
        obtain ⟨day, hmem, rfl⟩ := mem_map.mp hk
        exact hday day hmem
      · exact hle k
  · by_cases hk : k ∈ scope.map (Key.mk ord plane)
    · rw [if_pos hk]
      obtain ⟨day, hmem, rfl⟩ := mem_map.mp hk
      refine (hacc day hmem).imp (fun ⟨j, hj, hc⟩ => ⟨j, ?_⟩) id
      rwa [update_of_ne hj]
    · rw [if_neg hk]
      refine (h.clean k).imp (fun hc => clearing_update hc fun hclear => ?_) id
      rw [hi] at hclear
      exact absurd hclear hk

section addition

variable {ords : String → Option Nat} {ord : Nat} {plane : Plane}
  {read : List (DayOccupancy × DayBitmap)} (hord : ords b.calendarID = some ord)
  (hplane : b.state.occupiesPlane = some plane)
  (hdays : spanDays b.extendedSpan = .ok (read.map Prod.fst))

include hord hplane hdays

/-- Outside the batch of its addition a booking occupies nothing. -/
theorem contrib_of_not_held {k : Key} (hk : k ∉ (Task.apply b ord plane read []).held) :
    contrib ords b k = ⊥ := by
  refine contrib_of_not_inScope hplane hord hdays fun hscope => hk ?_
  obtain ⟨hkord, hkplane, hmem⟩ := hscope
  rw [map_map] at hmem
  obtain ⟨x, hx, hday⟩ := mem_map.mp hmem
  exact mem_map.mpr ⟨x, hx, Key.ext hkord.symm hkplane.symm hday⟩

/-- The index after the batch, if the days have the values that were read. -/
theorem writeAll_apply (hread : ∀ x ∈ read, x.2 = f ⟨ord, plane, x.1.dayNanos⟩) :
    (of ords f).writeAll read (fun x => ⟨ord, plane, x.1.dayNanos⟩)
      (fun x => x.2 ⊔ x.1.bits) = of ords fun k => f k ⊔ contrib ords b k := by
  have hnd := nodup_spanDays hdays
  rw [map_map] at hnd
  refine writeAll_of (nodup_map_key ord plane hnd) ?_ ?_
  · intro x hx
    have hocc : b.occupancySpan = some (b.extendedSpan, plane) :=
      occupancySpan_eq_some_iff.mpr ⟨rfl, hplane⟩
    rw [hread x hx, contrib_of_some hocc, if_pos ⟨hord, rfl⟩, bitsOf_ok hdays,
      bitsAt_of_mem (nodup_spanDays hdays) (mem_map.mpr ⟨x, hx, rfl⟩)]
  · intro k hk
    rw [contrib_of_not_held hord hplane hdays, sup_bot_eq]
    intro hmem
    obtain ⟨x, hx, hkey⟩ := mem_map.mp hmem
    exact hk x hx hkey

end addition

/-- **The commit of an addition.** -/
theorem Inv.apply (h : Inv src f tasks) {ord : Nat}
    {read : List (DayOccupancy × DayBitmap)} (hi : tasks i = .apply b ord plane read [])
    (hnot : ∀ j ≠ i, ∀ k ∈ (tasks i).held, k ∉ (tasks j).held) :
    Inv src (fun k => f k ⊔ contrib src.ordinals b k) (update tasks i (.returned (.ok ()))) := by
  have hsound := h.sound i
  rw [hi] at hnot hsound
  obtain ⟨⟨r₀, hr₀, hkey₀, hocc₀⟩, hord, hplane, hdays, -⟩ := hsound
  rw [append_nil] at hdays
  have hcontrib : ∀ k, contrib src.ordinals r₀ k = contrib src.ordinals b k := by
    intro k
    unfold contrib
    rw [hocc₀, show r₀.calendarID = b.calendarID from congrArg Prod.fst hkey₀]
  have howed : ∀ r ∈ src.bookings, Owed tasks r →
      Owed (update tasks i (.returned (.ok ()))) r ∨ r = r₀ := by
    intro r hr hr'
    by_cases hkey : r.key = b.key
    · exact .inr (src.uniqueBookings.eq_of_key hr hr₀ (hkey.trans hkey₀.symm))
    · refine .inl (hr'.update fun hadd => ?_)
      rw [hi] at hadd
      exact absurd (Option.some.inj hadd).symm hkey
  have hclear : ∀ k ∈ (tasks i).clearing src.ordinals,
      k ∈ (Task.returned (.ok ())).clearing src.ordinals := clearing_of_nil (by rw [hi]; rfl)
  refine .of_update h.expands trivial (fun j hj => ?_) (fun r hr => ?_) fun k => ?_
  · have hfree : ∀ k ∈ (tasks j).held, contrib src.ordinals b k = ⊥ :=
      fun k hk => contrib_of_not_held hord hplane hdays fun hk' => hnot j hj k hk' hk
    refine (h.sound j).frame rfl (fun _ hb => hb) (fun _ _ hb => hb)
      (fun k hk => ?_) (fun r hr => ?_) (fun k _ hk => hk.update (hclear k)) fun _ _ => .inr le_rfl
    · rw [hfree k hk, sup_bot_eq]
    · by_cases hr' : Owed tasks r
      · refine (howed r hr hr').imp id fun hrr => .inl fun k hk => ?_
        rw [hrr, hcontrib, hfree k hk]
      · exact .inr (.inr ⟨r, hr, hr', fun _ => rfl⟩)
  · rcases h.kept r hr with hr' | hle
    · refine (howed r hr hr').imp id fun hrr k => ?_
      rw [hrr, hcontrib]
      exact le_sup_right
    · exact .inr fun k => (hle k).trans le_sup_left
  · refine (h.clean k).imp (fun hk => clearing_update hk (hclear k)) fun hk => sup_le hk ?_
    rw [← hcontrib]
    exact le_total_of_mem hr₀

/-! ### Every step -/

/-- A removal takes its snapshot: the days as the records are now. -/
theorem step_remove (hexp : ∀ r ∈ src.bookings, Expands src.ordinals r)
    (hplane : b.state.occupiesPlane = some plane) (hb : Expands src.ordinals b) (readd : Bool) :
    ∃ ord scope acc, Task.step ⟨src, .of src.ordinals f⟩ (.remove b plane readd) =
        (.recompute b ord plane scope acc readd, ⟨src, .of src.ordinals f⟩) ∧
      scope.Nodup ∧
      (Task.remove b plane readd).clearing src.ordinals = scope.map (Key.mk ord plane) ∧
      ∀ day ∈ scope, acc day = total (contrib src.ordinals) src.bookings ⟨ord, plane, day⟩ := by
  obtain ⟨⟨ord, hord⟩, days, hdays⟩ := hb _ _ (occupancySpan_eq_some_iff.mpr ⟨rfl, hplane⟩)
  obtain ⟨acc, hacc, hday⟩ := recomputeLoop_of plane (days.map DayOccupancy.dayNanos)
    (src.liveBookingsOn b.calendarID plane)
    (fun r hr => (mem_liveBookingsOn.mp hr).2.2)
    (fun r hr => hexp r (mem_liveBookingsOn.mp hr).1) fun _ => ⊥
  refine ⟨ord, days.map DayOccupancy.dayNanos, acc, ?_, nodup_spanDays hdays, ?_,
    fun day hmem => ?_⟩
  · simp only [Task.step, of, hord, hdays, hacc]
  · simp only [Task.clearing, hord, hdays]
  · rw [hday day hmem, bot_sup_eq, total_liveBookingsOn src hord]

/-- The calls are in order, and the index is what they have made of it. -/
def InOrder (s : Race n) : Prop :=
  ∃ f, s.life.index = .of s.life.src.ordinals f ∧ Inv s.life.src f s.tasks

/-- The step of a call of `tasks` leaves the calls in order. -/
def Advances (src : Source) (f : Key → DayBitmap) (tasks : Fin n → Task) (i : Fin n) : Prop :=
  (advance ⟨⟨src, .of src.ordinals f⟩, tasks⟩ i).InOrder

theorem advances_of_step {x : IndexStore} (hi : tasks i = t)
    (hstep : t.step ⟨src, .of src.ordinals f⟩ = (t', ⟨src', x⟩)) (hidx : x = .of src'.ordinals f')
    (h : Inv src' f' (update tasks i t')) : Advances src f tasks i := by
  subst hi
  unfold Advances advance
  rw [hstep]
  exact ⟨f', hidx, h⟩

/-- A step that writes nothing and leads to the task. -/
theorem advances_of_local (hi : tasks i = t) (t' : Task)
    (hstep : t.step ⟨src, .of src.ordinals f⟩ = (t', ⟨src, .of src.ordinals f⟩))
    (h : Inv src f (update tasks i t')) : Advances src f tasks i :=
  advances_of_step hi hstep rfl h

/-- A call that returns before it has written anything. -/
theorem Inv.fails (h : Inv src f tasks) (hi : tasks i = t) (hadd : t.adding = none)
    (hclear : t.clearing src.ordinals = []) {r : Except CalError Unit}
    (hstep : t.step ⟨src, .of src.ordinals f⟩ = (.returned r, ⟨src, .of src.ordinals f⟩)) :
    Advances src f tasks i :=
  advances_of_local hi _ hstep (h.relocate_idle hi hadd hclear trivial)

section steps

variable (h : Inv src f tasks)

include h

theorem Inv.step_create (hi : tasks i = .create b) : Advances src f tasks i := by
  rcases hcal : src.calendar b.calendarID with - | cal
  · apply h.fails hi rfl rfl
    simp only [Task.step, hcal]
    rfl
  · refine advances_of_local hi (.put (resolve ⟨src, .of src.ordinals f⟩ b)) ?_
      (h.relocate_idle hi rfl rfl trivial)
    simp only [Task.step, hcal]

theorem Inv.step_put (hi : tasks i = .put b) (hnew : ∀ r ∈ src.bookings, r.key ≠ b.key)
    (hr : b.InReach) : Advances src f tasks i := by
  rcases hput : src.putBooking b with e | src'
  · apply h.fails hi rfl rfl
    simp only [Task.step, hput]
    rfl
  · obtain ⟨hacc, rfl⟩ := putBooking_eq_ok_iff.mp hput
    refine advances_of_step hi ?_ rfl (h.put hi hacc hnew hr)
    simp only [Task.step, hput]
    rfl

variable {after : State}

theorem Inv.step_transition {cal id : String}
    (hi : tasks i = .transition cal id after) : Advances src f tasks i := by
  rcases hb : src.booking cal id with - | b
  · apply h.fails hi rfl rfl
    simp only [Task.step, hb]
    rfl
  by_cases hallowed : allowedTransition b.state after = false
  · apply h.fails hi rfl rfl
    simp only [Task.step, hb, if_pos hallowed]
    rfl
  · refine advances_of_local hi (.check b after) ?_
      (h.relocate_idle hi rfl rfl ⟨⟨b.state, (mem_of_booking hb).1⟩, ?_⟩)
    · simp only [Task.step, hb, if_neg hallowed]
    · exact Bool.eq_true_of_not_eq_false hallowed

theorem Inv.step_check (hi : tasks i = .check b after) : Advances src f tasks i := by
  have hsound := h.sound i
  rw [hi] at hsound
  rcases hb : src.booking b.calendarID b.bookingID with - | nb
  · apply h.fails hi rfl rfl
    simp only [Task.step, hb]
    rfl
  by_cases hbearer : after = .binding ∧ validEntity nb.bearer = false
  · apply h.fails hi rfl rfl
    simp only [Task.step, hb, if_pos hbearer]
    rfl
  · refine advances_of_local hi (.swap b after) ?_ (h.relocate_idle hi rfl rfl hsound)
    simp only [Task.step, hb, if_neg hbearer]

theorem Inv.step_swap (hi : tasks i = .swap b after)
    (hnot : ∀ j ≠ i, (tasks j).adding ≠ some b.key) : Advances src f tasks i := by
  have hsound := h.sound i
  rw [hi] at hsound
  rcases hswap : src.swapState b.calendarID b.bookingID b.state after with - | src'
  · apply h.fails hi rfl rfl
    simp only [Task.step, hswap]
    rfl
  · obtain ⟨r, hr, hst, rfl⟩ := swapState_ok hswap
    obtain ⟨hmem, hcal, hid⟩ := mem_of_booking hr
    obtain ⟨⟨st, hb⟩, hallowed⟩ := hsound
    -- the record is the booking that was read
    obtain rfl : r = b := by
      rw [src.uniqueBookings.eq_of_key hmem hb (Prod.ext hcal hid)] at hst ⊢
      rw [show st = b.state from hst]
    refine advances_of_step hi ?_ rfl (h.swap hi hmem hallowed hnot)
    simp only [Task.step, hswap]
    rfl

theorem Inv.step_remove {plane : Plane} {readd : Bool} (hi : tasks i = .remove b plane readd) :
    Advances src f tasks i := by
  have hsound := h.sound i
  rw [hi] at hsound
  obtain ⟨ord, scope, acc, hstep, hnd, hclear, hacc⟩ :=
    Race.step_remove (f := f) h.expands hsound.1 hsound.2 readd
  refine advances_of_local hi (.recompute b ord plane scope acc readd) hstep
    (h.relocate hi ⟨hnd, ?_, ?_⟩ ?_ ?_)
  · refine fun r hr => .inr fun day hday => ?_
    rw [hacc day hday]
    exact le_total_of_mem hr
  · exact fun day hday => .inr (hacc day hday).le
  · intro r _ hadd
    cases readd with
    | true => exact .inl hadd
    | false => cases hadd
  · intro k hk
    rw [hclear] at hk
    exact hk

theorem Inv.step_reread {cal id : String} (hi : tasks i = .reread cal id) :
    Advances src f tasks i := by
  rcases hb : src.booking cal id with - | nb
  · refine advances_of_local hi (.returned (.ok ())) ?_
      (h.relocate hi trivial (fun r hr hadd => ?_) (clearing_of_nil rfl))
    · simp only [Task.step, hb]
    · -- there is no such record
      have hnone := find?_eq_none.mp hb r hr
      exact absurd (decide_eq_true (Option.some.inj hadd).symm) hnone
  · obtain ⟨hmem, rfl, rfl⟩ := mem_of_booking hb
    refine advances_of_local hi (.add nb) ?_
      (h.relocate hi ⟨nb, hmem, rfl, rfl⟩ (fun r _ hadd => .inl ?_) (clearing_of_nil rfl))
    · simp only [Task.step, hb]
    · exact hadd

theorem Inv.step_add (hi : tasks i = .add b) : Advances src f tasks i := by
  have hsound := h.sound i
  rw [hi] at hsound
  obtain ⟨r₀, hr₀, hkey₀, hocc₀⟩ := hsound
  rcases hocc : b.occupancySpan with - | ⟨span, plane⟩
  · refine advances_of_local hi (.returned (.ok ())) ?_
      (h.relocate hi trivial (fun r hr hadd => .inr fun k => ?_) (clearing_of_nil rfl))
    · simp only [Task.step, hocc]
    · obtain rfl : r = r₀ := src.uniqueBookings.eq_of_key hr hr₀
        ((Option.some.inj hadd).symm.trans hkey₀.symm)
      exact contrib_of_none (hocc₀.trans hocc) k
  · obtain ⟨hord, days, hdays⟩ := h.expands r₀ hr₀ _ _ (hocc₀.trans hocc)
    rw [show r₀.calendarID = b.calendarID from congrArg Prod.fst hkey₀] at hord
    obtain ⟨ord, hord⟩ := hord
    obtain ⟨rfl, hplane⟩ := occupancySpan_eq_some_iff.mp hocc
    refine advances_of_local hi (.apply b ord plane [] days) ?_
      (h.relocate hi
        ⟨⟨r₀, hr₀, hkey₀, hocc₀⟩, hord, hplane, hdays, fun x hx => absurd hx not_mem_nil⟩
        (fun r _ hadd => .inl ?_) (clearing_of_nil rfl))
    · simp only [Task.step, hocc, of, hord, hdays]
    · exact hadd

/-- A day is read. -/
theorem Inv.step_apply_cons {ord : Nat} {plane : Plane} {read : List (DayOccupancy × DayBitmap)}
    {d : DayOccupancy} {todo : List DayOccupancy}
    (hi : tasks i = .apply b ord plane read (d :: todo)) : Advances src f tasks i := by
  have hsound := h.sound i
  rw [hi] at hsound
  obtain ⟨hm, hord, hplane, hdays, hread⟩ := hsound
  refine advances_of_local hi
    (.apply b ord plane (read ++ [(d, (of src.ordinals f).dayValue _)]) todo) rfl
    (h.relocate hi ⟨hm, hord, hplane, ?_, fun x hx => ?_⟩ (fun r _ hadd => .inl hadd)
      (clearing_of_nil rfl))
  · rw [hdays, map_append, append_assoc]
    rfl
  · rcases mem_append.mp hx with hx | hx
    · exact hread x hx
    · rw [mem_singleton.mp hx]
      exact dayValue_of _

end steps

variable {s : Race n}

/-- **One step** of a call that is in order. -/
theorem inOrder_advance (h : s.InOrder) (hord : s.Orderly (.run i)) : (s.advance i).InOrder := by
  obtain ⟨⟨src, index⟩, tasks⟩ := s
  obtain ⟨f, hidx, h⟩ := h
  dsimp only at hidx h
  subst hidx
  have hsound := h.sound i
  unfold Orderly at hord
  dsimp only at hord
  cases hi : tasks i with
  | create b => exact h.step_create hi
  | put b =>
    rw [hi] at hord
    exact h.step_put hi hord.1 hord.2
  | execute b =>
    rw [hi] at hsound
    exact hsound.elim
  | transition cal id after => exact h.step_transition hi
  | check b after => exact h.step_check hi
  | swap b after =>
    rw [hi] at hord
    exact h.step_swap hi hord
  | remove b plane readd => exact h.step_remove hi
  | recompute b ord plane scope acc readd =>
    rw [hi] at hord hsound
    refine advances_of_step hi rfl (writeAll_recompute hsound.1 ord plane acc) (h.recompute hi ?_)
    rw [hi]
    exact hord
  | reread cal id => exact h.step_reread hi
  | add b => exact h.step_add hi
  | apply b ord plane read todo =>
    cases todo with
    | nil =>
      rw [hi] at hord hsound
      obtain ⟨-, hord', hplane, hdays, hread⟩ := hsound
      rw [append_nil] at hdays
      refine advances_of_step hi rfl (writeAll_apply hord' hplane hdays hread) (h.apply hi ?_)
      rw [hi]
      exact hord
    | cons d todo => exact h.step_apply_cons hi
  | returned r => exact h.fails hi rfl rfl rfl

theorem inOrder_call (h : s.InOrder) {c : Call}
    (hc : (RaceCmd.call i c).OfLifecycle) : (s.step (.call i c)).InOrder := by
  rcases s.step_call i c with hs | ⟨⟨r, hr⟩, hs⟩ <;> rw [hs]
  · exact h
  · obtain ⟨f, hidx, h⟩ := h
    refine ⟨f, hidx, h.relocate_idle hr rfl rfl ?_⟩
    cases c with
    | execute b => exact hc.elim
    | create | confirm | decline | complete | cancel | markMissed => trivial

theorem inOrder_step (s : Race n) (c : RaceCmd n) (h : s.InOrder)
    (hc : s.Orderly c ∧ c.OfLifecycle) : (s.step c).InOrder := by
  cases c with
  | call i c => exact inOrder_call h hc.2
  | run i => exact inOrder_advance h hc.1

theorem inOrder_idle {l : Lifecycle} (h : l.Synced) : (idle n l).InOrder := by
  obtain ⟨hexp, hidx⟩ := synced_iff.mp h
  refine ⟨_, hidx, hexp, fun _ => trivial, fun r hr => .inr fun k => ?_, fun k => .inr le_rfl⟩
  exact le_total_of_mem hr

/-- When no call is under way the index is what a rebuild gives. -/
theorem InOrder.synced (h : s.InOrder) (hdone : ∀ i, (s.tasks i).outcome.isSome) :
    s.life.Synced := by
  obtain ⟨f, hidx, h⟩ := h
  have hret : ∀ i, ∃ r, s.tasks i = .returned r := by
    intro i
    have hi := hdone i
    unfold Task.outcome at hi
    split at hi
    · exact ⟨_, ‹_›⟩
    · cases hi
  have hkept : ∀ r ∈ s.life.src.bookings, ∀ k, contrib s.life.src.ordinals r k ≤ f k := by
    intro r hr
    refine (h.kept r hr).resolve_left ?_
    rintro ⟨i, hadd⟩
    obtain ⟨res, hi⟩ := hret i
    rw [hi] at hadd
    cases hadd
  have hclean : ∀ k, f k ≤ total (contrib s.life.src.ordinals) s.life.src.bookings k := by
    intro k
    refine (h.clean k).resolve_left ?_
    rintro ⟨i, hclear⟩
    obtain ⟨res, hi⟩ := hret i
    rw [hi] at hclear
    cases hclear
  refine synced_iff.mpr ⟨h.expands, ?_⟩
  rw [hidx]
  exact of_eq_of_iff.mpr fun k =>
    le_antisymm (hclean k) (total_le_iff.mpr fun r hr => hkept r hr k)

/-- **No occupancy is lost** in a run of calls that are in order: whenever none of them is under
way, the index is what a rebuild gives. -/
theorem index_rebuilt_after_calls (n : Nat) (l : Lifecycle) (h : l.Synced) (cmds : List (RaceCmd n))
    (hcalls : ∀ c ∈ cmds, c.OfLifecycle) (hord : Along step Orderly (idle n l) cmds)
    (hdone : ∀ i, ((run step (idle n l) cmds).tasks i).outcome.isSome) :
    (run step (idle n l) cmds).life.Synced :=
  (invariant_of_along inOrder_step (inOrder_idle h) (hord.and_forall hcalls)).synced hdone

/-- So many steps of a caller. -/
def runs (i : Fin n) (count : Nat) : List (RaceCmd n) := List.replicate count (.run i)

/-- Two proposals for hours of one day. -/
def proposing : List (RaceCmd 2) :=
  [.call 0 (.create (proposal "a" (hours 9 10) 0)),
   .call 1 (.create (proposal "b" (hours 11 12) 0))]

/-- Their records are written before the first of them is added; then a confirmation and a
cancellation whose records are written before either removal. -/
def takingTurns : List (RaceCmd 2) :=
  proposing ++ (runs 0 2 ++ runs 1 2 ++ runs 0 3 ++ runs 1 3) ++
  .call 0 (.confirm "room" "a") :: .call 1 (.cancel "room" "b") ::
    (runs 0 3 ++ runs 1 3 ++ runs 0 2 ++ runs 1 2 ++ runs 0 4)

theorem index_rebuilt_takingTurns : (run step (idle 2 oneRoom) takingTurns).life.Synced := by
  apply index_rebuilt_after_calls 2 oneRoom synced_oneRoom takingTurns
  · decide
  · decide +kernel
  · decide +kernel

/-- Each of the two reads the day before the other commits it. -/
def bothRead : List (RaceCmd 2) := proposing ++ runs 0 4 ++ runs 1 4 ++ runs 0 1 ++ runs 1 1

/-- Both calls return, both records are there, and the quanta of the first are lost. -/
theorem lost_quanta_of_two_creations : let s := run step (idle 2 oneRoom) bothRead
    oneRoom.Synced ∧ (∀ i, (s.tasks i).outcome = some (.ok ())) ∧ ¬ s.life.Synced ∧
      s.life.index.days proposedDay = some ((⊥ : DayBitmap).setRange 132 144) ∧
      (rebuildFrom s.life.src).toOption.map (·.days proposedDay) =
        some (some ((⊥ : DayBitmap).setRange 108 120 ⊔ (⊥ : DayBitmap).setRange 132 144)) := by
  intro s
  have hidx : s.life.index.days proposedDay = some ((⊥ : DayBitmap).setRange 132 144) := by
    decide +kernel
  have hreb : (rebuildFrom s.life.src).toOption.map (·.days proposedDay) =
      some (some ((⊥ : DayBitmap).setRange 108 120 ⊔ (⊥ : DayBitmap).setRange 132 144)) := by
    decide +kernel
  refine ⟨synced_oneRoom, by decide +kernel, ?_, hidx, hreb⟩
  apply not_synced_of_days proposedDay hreb
  decide +kernel

end Race

end Xolu.Cal
