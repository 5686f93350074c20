/-
# Pages of a list

A list in the strictly descending order of its keys is read page by page.  A page has at most so
many members, and a cursor, the key of its last member, if there is one behind it; the next page
goes on with the keys below the cursor.

`Follows call c out` says that the pages from a cursor on come to an end and give `out`.  If every
call returns its page, following the cursors gives the whole list (`follows_of_pages`).
-/
import Mathlib.Order.Lattice
import Mathlib.Data.List.Basic

namespace Paging

open List
variable {α K ε : Type*} [LinearOrder K] {key : α → K} {n : Nat} {l : List α} {c c' : Option K}

/-- The members below a cursor. -/
def below (key : α → K) (c : Option K) (l : List α) : List α :=
  l.filter fun a => c.all fun k => decide (key a < k)

/-- The first members, and the cursor if there are more. -/
def page (key : α → K) (n : Nat) (l : List α) : List α × Option K :=
  (l.take n, if n < l.length then (l.take n).getLast?.map key else none)

/-- The pages from a cursor on come to an end and give a list. -/
inductive Follows (call : Option K → Except ε (List α × Option K)) : Option K → List α → Prop
  | last {c : Option K} {out : List α} (h : call c = .ok (out, none)) : Follows call c out
  | next {c : Option K} {out rest : List α} {k : K} (h : call c = .ok (out, some k))
      (hrest : Follows call (some k) rest) : Follows call c (out ++ rest)

theorem below_none (l : List α) : below key none l = l := filter_eq_self.mpr fun _ _ => rfl

/-- Below the last member of a page there is what comes behind the page. -/
theorem below_getLast (hl : l.Pairwise fun a b => key b < key a) {a : α}
    (ha : (l.take n).getLast? = some a) : below key (some (key a)) l = l.drop n := by
  obtain ⟨front, hfront⟩ := getLast?_eq_some_iff.mp ha
  have hsplit : l = front ++ a :: l.drop n := by
    conv_lhs => rw [← take_append_drop n l, hfront, append_assoc]
    rfl
  rw [hsplit, pairwise_append, pairwise_cons] at hl
  obtain ⟨-, ⟨hafter, -⟩, hbefore⟩ := hl
  have hgone : (front.filter fun b => decide (key b < key a)) = [] := by
    refine filter_eq_nil_iff.mpr fun b hb => ?_
    rw [decide_eq_true_eq]
    exact lt_asymm (hbefore b hb a mem_cons_self)
  have hkept : ((l.drop n).filter fun b => decide (key b < key a)) = l.drop n :=
    filter_eq_self.mpr fun b hb => decide_eq_true (hafter b hb)
  rw [below]
  simp only [Option.all_some]
  conv_lhs => rw [hsplit]
  rw [filter_append, hgone, nil_append, filter_cons_of_neg (by simp), hkept]

theorem mem_of_getLast? {a : α} (ha : (l.take n).getLast? = some a) : a ∈ l :=
  mem_of_mem_take (List.mem_of_getLast? ha)

/-- **Following the cursors** gives the whole list, if every call returns its page. -/
theorem follows_of_pages {call : Option K → Except ε (List α × Option K)} (hn : 0 < n)
    (hl : l.Pairwise fun a b => key b < key a)
    (hcall : ∀ c, (∀ k ∈ c, ∃ a ∈ l, key a = k) → call c = .ok (page key n (below key c l)))
    (hc : ∀ k ∈ c, ∃ a ∈ l, key a = k) : Follows call c (below key c l) := by
  -- by what remains below the cursor
  generalize hlength : (below key c l).length = m
  induction m using Nat.strongRecOn generalizing c with
  | ind m ih =>
    have hpage := hcall c hc
    by_cases hmore : n < (below key c l).length
    · obtain ⟨a, ha⟩ : ∃ a, ((below key c l).take n).getLast? = some a := by
        refine ⟨_, getLast?_eq_some_getLast ?_⟩
        rw [ne_eq, take_eq_nil_iff]
        rintro (h | h)
        · omega
        · rw [h] at hmore
          exact absurd hmore (Nat.not_lt_zero n)
      have hmem : a ∈ l := mem_of_mem_filter (mem_of_getLast? ha)
      -- below the new cursor there is the rest
      have hrest : below key (some (key a)) l = (below key c l).drop n := by
        have hbelow : (below key c l).Pairwise fun a b => key b < key a := hl.filter _
        rw [← below_getLast hbelow ha]
        unfold below
        rw [filter_filter]
        refine filter_congr fun b _ => ?_
        have hcursor : ∀ k ∈ c, key a < k := by
          intro k hk
          have := (mem_filter.mp (mem_of_getLast? ha)).2
          rw [Option.mem_def.mp hk] at this
          simpa using this
        rcases c with - | k
        · simp
        · have := hcursor k rfl
          by_cases hb : key b < key a
          · simp [hb, lt_trans hb this]
          · simp [hb]
      rw [page, if_pos hmore, ha, Option.map_some] at hpage
      have hfollows := ih ((below key c l).drop n).length
        (by rw [length_drop]; omega) (c := some (key a))
        (fun k hk => ⟨a, hmem, Option.some.inj hk⟩) (by rw [hrest])
      rw [hrest] at hfollows
      have := Follows.next hpage hfollows
      rwa [take_append_drop] at this
    · rw [page, if_neg hmore, take_of_length_le (Nat.not_lt.mp hmore)] at hpage
      exact .last hpage

end Paging
