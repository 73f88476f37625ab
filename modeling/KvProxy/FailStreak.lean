import KvProxy.FailAccounting

/-!
# The failure counters over a lifetime

`countFail` keeps two counters per host: `st_fail`, all failures up to
`ST_LIMIT`, and `st_cont_fail`, the failures since the last success, which the
health check compares with the failover threshold.  Both are counted up under
the test of the first one.  Once a host has failed `ST_LIMIT` times in all,
its streaks are not counted any more.

* `Thread.counters_count`, `talkTurns_counters` — the counters of a thread after
  a batch are those after the calls of `countFail` it has made;
* `counters_after` — what the two counters are after any calls;
* `streak_counted_iff` — when the second one is the streak, and when a host
  that keeps failing gets to the threshold again.
-/

namespace KvProxy

/-- `ST_LIMIT`. -/
def stLimit : Nat := 2100000000

/-- The maps `st_fail` and `st_cont_fail`, shared by all threads. -/
structure FailCounters where
  stFail : SortedMap Nat Nat
  stContFail : SortedMap Nat Nat
  deriving DecidableEq

namespace FailCounters

/-- `initVar`, of which the offline flags are kept elsewhere. -/
def initVar (aliases : List Nat) : FailCounters where
  stFail := aliases.foldl (fun m a => m.insert a 0) ∅
  stContFail := aliases.foldl (fun m a => m.insert a 0) ∅

/-- `countFail(is_fail, alias_index)`. -/
def countFail (limit : Nat) (c : FailCounters) (isFail : Bool) (aliasIndex : Nat) :
    FailCounters :=
  if isFail then
    if c.stFail.getD aliasIndex 0 < limit then
      ⟨c.stFail.insert aliasIndex (c.stFail.getD aliasIndex 0 + 1),
        c.stContFail.insert aliasIndex (c.stContFail.getD aliasIndex 0 + 1)⟩
    else c
  else if c.stContFail.getD aliasIndex 0 ≠ 0 then
    { c with stContFail := c.stContFail.insert aliasIndex 0 }
  else c

/-- The counters after a sequence of calls. -/
def countFails (limit : Nat) (c : FailCounters) (calls : List (Bool × Nat)) : FailCounters :=
  calls.foldl (fun c call => c.countFail limit call.1 call.2) c

/-- The failures counted for a host. -/
def fails (c : FailCounters) (a : Nat) : Nat := c.stFail.getD a 0

/-- The continuous failures counted for a host. -/
def contFails (c : FailCounters) (a : Nat) : Nat := c.stContFail.getD a 0

end FailCounters

/-! ## The counters of a thread -/

/-- The counters, as the functions of a thread see them. -/
def Thread.counters (t : Thread) : FailCounters := ⟨t.stFail, t.stContFail⟩

theorem Thread.counters_count (limit : Nat) (t : Thread) (isFail : Bool) (a : Nat) :
    (t.count limit isFail a).counters = t.counters.countFail limit isFail a := by
  cases isFail with
  | true =>
      by_cases hlimit : t.stFail.getD a 0 < limit
      · simp [Thread.count, FailCounters.countFail, Thread.counters, hlimit]
      · simp [Thread.count, FailCounters.countFail, Thread.counters, hlimit]
  | false =>
      by_cases hzero : t.stContFail.getD a 0 = 0
      · simp [Thread.count, FailCounters.countFail, Thread.counters, hzero]
      · simp [Thread.count, FailCounters.countFail, Thread.counters, hzero]

theorem Thread.SameButResp.counters {t t' : Thread} (h : t.SameButResp t') :
    t'.counters = t.counters := by
  obtain ⟨buf, len, rfl⟩ := h
  rfl

theorem FailCounters.countFails_append (limit : Nat) (c : FailCounters)
    (calls more : List (Bool × Nat)) :
    c.countFails limit (calls ++ more) = (c.countFails limit calls).countFails limit more := by
  simp [FailCounters.countFails]

/-- One turn changes the counters by the calls it makes. -/
theorem talkTurn_counters {cfg : BackendConfig} {turn : Turn} {t : Thread} {respList : List Resp}
    {got : Thread × List Resp} (h : (talkTurn cfg turn t respList).result = some got) :
    got.1.counters = t.counters.countFails cfg.stLimit
      (countCalls (talkTurn cfg turn t respList).effects) := by
  revert h
  unfold talkTurn
  simp only
  split_ifs with hlen hconn
  · rw [countFail_bind]
    rintro ⟨⟩
    exact Thread.counters_count _ _ _ _
  · obtain ⟨sent, hsent⟩ :=
      writeLoop_returns (t.staged turn.items).message turn.io.sends turn.io.conn 0
    have hsending := countCalls_eq_nil (fun e he => Or.inl
      ((writeLoop_spec (t.staged turn.items).message turn.io.sends turn.io.conn 0).effects e he))
    rw [writeToBackend_bind hsent, countCalls_cons_write, countCalls_append, hsending,
      List.nil_append]
    split_ifs
    · cases hgot : (readFromBackend cfg sent.1 turn.io.recvs (t.staged turn.items) respList).result with
      | none =>
          rw [Act.bind_of_none _ hgot]
          exact fun h => absurd h (by simp)
      | some read =>
          have hspec := readFromBackend_spec cfg sent.1 turn.io.recvs (t.staged turn.items) respList
          have hreading := countCalls_eq_nil (fun e he => Or.inr (hspec.effects e he))
          have hsame := (hspec.result read hgot).counters
          rw [Act.bind_of_some _ hgot, countFail_bind]
          dsimp only
          rw [countCalls_append, hreading, List.nil_append]
          rintro ⟨⟩
          have hcount := Thread.counters_count cfg.stLimit read.1 read.2.isEmpty turn.aliasIndex
          rw [hsame] at hcount
          exact hcount
    · rw [countFail_bind]
      rintro ⟨⟩
      exact Thread.counters_count _ _ _ _
    · rintro ⟨⟩
      rfl
  · rintro ⟨⟩
    rfl

/-- **A batch changes the counters by the calls it makes**, in their order. -/
theorem talkTurns_counters {cfg : BackendConfig} {turns : List Turn} {t : Thread}
    {respList : List Resp} {got : Thread × List Resp}
    (h : (talkTurns cfg turns t respList).result = some got) :
    got.1.counters = t.counters.countFails cfg.stLimit
      (countCalls ((talkTurns cfg turns t respList).effects.map Prod.snd)) := by
  induction turns generalizing t respList with
  | nil =>
      obtain rfl := Option.some.inj h
      rfl
  | cons turn rest ih =>
      cases hturn : (talkTurn cfg turn t respList).result with
      | none =>
          rw [talkTurns_of_none hturn] at h
          exact absurd h (by simp)
      | some first =>
          have hlabels : ((talkTurn cfg turn t respList).effects.map
              (Prod.mk turn.aliasIndex)).map Prod.snd = (talkTurn cfg turn t respList).effects := by
            rw [List.map_map]
            exact List.map_id _
          rw [talkTurns_of_some hturn] at h ⊢
          dsimp only at h ⊢
          rw [List.map_append, hlabels, countCalls_append, FailCounters.countFails_append,
            ← talkTurn_counters hturn]
          exact ih h

/-! ## What the counters hold -/

/-- The failures of a host among the calls. -/
def failures (a : Nat) (calls : List (Bool × Nat)) : Nat := calls.count (true, a)

/-- Its failures since its last success. -/
def streak (a : Nat) (calls : List (Bool × Nat)) : Nat :=
  (calls.reverse.takeWhile (fun call => call ≠ (false, a))).count (true, a)

theorem failures_append (a : Nat) (calls more : List (Bool × Nat)) :
    failures a (calls ++ more) = failures a calls + failures a more := List.count_append

theorem failures_concat (a : Nat) (calls : List (Bool × Nat)) (call : Bool × Nat) :
    failures a (calls ++ [call]) = failures a calls + if call = (true, a) then 1 else 0 := by
  rw [failures_append]
  by_cases hcall : call = (true, a)
  · simp [failures, hcall]
  · simp [failures, hcall]

theorem streak_concat (a : Nat) (calls : List (Bool × Nat)) (call : Bool × Nat) :
    streak a (calls ++ [call]) =
      if call = (false, a) then 0 else streak a calls + if call = (true, a) then 1 else 0 := by
  by_cases hsuccess : call = (false, a)
  · simp [streak, hsuccess]
  · by_cases hcall : call = (true, a)
    · simp [streak, hcall]
    · simp [streak, hsuccess, hcall]

theorem streak_le_failures (a : Nat) (calls : List (Bool × Nat)) :
    streak a calls ≤ failures a calls := by
  have hsub : streak a calls ≤ calls.reverse.count (true, a) :=
    (List.takeWhile_sublist _).count_le (true, a)
  rw [List.count_reverse] at hsub
  exact hsub

namespace FailCounters

theorem fails_countFail (limit : Nat) (c : FailCounters) (isFail : Bool) (a b : Nat) :
    (c.countFail limit isFail b).fails a =
      if (isFail, b) = (true, a) ∧ c.fails a < limit then c.fails a + 1 else c.fails a := by
  cases isFail with
  | true =>
      by_cases hb : b = a
      · subst hb
        by_cases hlimit : c.stFail.getD b 0 < limit
        · simp [countFail, fails, hlimit, SortedMap.getD_insert]
        · simp [countFail, fails, hlimit]
      · by_cases hlimit : c.stFail.getD b 0 < limit
        · simp [countFail, fails, hlimit, SortedMap.getD_insert, hb, Ne.symm hb]
        · simp [countFail, fails, hlimit, hb]
  | false =>
      by_cases hzero : c.stContFail.getD b 0 = 0
      · simp [countFail, fails, hzero]
      · simp [countFail, fails, hzero]

theorem contFails_countFail (limit : Nat) (c : FailCounters) (isFail : Bool) (a b : Nat) :
    (c.countFail limit isFail b).contFails a =
      if (isFail, b) = (false, a) then 0
      else if (isFail, b) = (true, a) ∧ c.fails a < limit then c.contFails a + 1
      else c.contFails a := by
  cases isFail with
  | true =>
      by_cases hb : b = a
      · subst hb
        by_cases hlimit : c.stFail.getD b 0 < limit
        · simp [countFail, fails, contFails, hlimit, SortedMap.getD_insert]
        · simp [countFail, fails, contFails, hlimit]
      · by_cases hlimit : c.stFail.getD b 0 < limit
        · simp [countFail, contFails, hlimit, SortedMap.getD_insert, hb, Ne.symm hb]
        · simp [countFail, contFails, hlimit, hb]
  | false =>
      by_cases hb : b = a
      · subst hb
        by_cases hzero : c.stContFail.getD b 0 = 0
        · simp [countFail, contFails, hzero]
        · simp [countFail, contFails, hzero, SortedMap.getD_insert]
      · by_cases hzero : c.stContFail.getD b 0 = 0
        · simp [countFail, contFails, hzero, hb]
        · simp [countFail, contFails, hzero, SortedMap.getD_insert, hb, Ne.symm hb]

theorem countFails_concat (limit : Nat) (c : FailCounters) (calls : List (Bool × Nat))
    (call : Bool × Nat) :
    c.countFails limit (calls ++ [call]) =
      (c.countFails limit calls).countFail limit call.1 call.2 := by
  simp [countFails]

/-- The counters start at zero. -/
theorem getD_foldl_insert_zero (aliases : List Nat) {m : SortedMap Nat Nat} {a : Nat}
    (h : m.getD a 0 = 0) : (aliases.foldl (fun m b => m.insert b 0) m).getD a 0 = 0 := by
  induction aliases generalizing m with
  | nil => exact h
  | cons b aliases ih =>
      rw [List.foldl_cons]
      apply ih
      rw [SortedMap.getD_insert]
      split_ifs
      · rfl
      · exact h

theorem initVar_zero (aliases : List Nat) (a : Nat) :
    (initVar aliases).fails a = 0 ∧ (initVar aliases).contFails a = 0 :=
  ⟨getD_foldl_insert_zero aliases rfl, getD_foldl_insert_zero aliases rfl⟩

/-- **The counters after any calls.**  A failure is counted in both of them, or,
from the limit on, in neither. -/
theorem counters_after (limit : Nat) (aliases : List Nat) (calls : List (Bool × Nat)) (a : Nat) :
    ((initVar aliases).countFails limit calls).fails a = min (failures a calls) limit ∧
      ((initVar aliases).countFails limit calls).contFails a =
        min (streak a calls) (limit - (failures a calls - streak a calls)) := by
  induction calls using List.reverseRecOn with
  | nil =>
      obtain ⟨hfails, hcont⟩ := initVar_zero aliases a
      exact ⟨by simpa [failures, countFails] using hfails,
        by simpa [streak, countFails] using hcont⟩
  | append_singleton calls call ih =>
      obtain ⟨hfails, hcont⟩ := ih
      have hle := streak_le_failures a calls
      rw [countFails_concat, fails_countFail, contFails_countFail, hfails, hcont, failures_concat,
        streak_concat]
      by_cases hfail : call = (true, a)
      · simp only [hfail, if_true, true_and, reduceCtorEq, Prod.mk.injEq, false_and, if_false]
        split_ifs <;> omega
      · by_cases hsuccess : call = (false, a)
        · simp [hsuccess]
        · simp only [Prod.mk.eta, hfail, hsuccess, if_false, false_and, Nat.add_zero]
          exact ⟨trivial, trivial⟩

/-! ## The streak -/

/-- The counters of a host are its streak and its failures, up to the limit. -/
def StreakCounted (limit : Nat) (aliases : List Nat) (calls : List (Bool × Nat)) (a : Nat) : Prop :=
  ((initVar aliases).countFails limit calls).contFails a = min (streak a calls) limit ∧
    ((initVar aliases).countFails limit calls).fails a = min (failures a calls) limit

/-- After the calls and a success, a host that keeps failing gets to the
threshold. -/
def ReachesAgain (limit : Nat) (aliases : List Nat) (threshold : Nat) (calls : List (Bool × Nat))
    (a : Nat) : Prop :=
  ∃ n, threshold ≤ ((initVar aliases).countFails limit
    (calls ++ (false, a) :: List.replicate n (true, a))).contFails a

theorem streakCounted_iff {limit : Nat} (hlimit : 0 < limit) (aliases : List Nat)
    (calls : List (Bool × Nat)) (a : Nat) :
    StreakCounted limit aliases calls a ↔
      streak a calls = 0 ∨ failures a calls = streak a calls ∨ failures a calls ≤ limit := by
  obtain ⟨hfails, hcont⟩ := counters_after limit aliases calls a
  have hle := streak_le_failures a calls
  rw [StreakCounted, hfails, hcont]
  omega

theorem streak_after_success (calls : List (Bool × Nat)) (a n : Nat) :
    streak a (calls ++ (false, a) :: List.replicate n (true, a)) = n := by
  induction n with
  | zero => simp [streak]
  | succ n ih =>
      rw [List.replicate_succ', ← List.cons_append, ← List.append_assoc, streak_concat, ih]
      simp

theorem failures_after_success (calls : List (Bool × Nat)) (a n : Nat) :
    failures a (calls ++ (false, a) :: List.replicate n (true, a)) = failures a calls + n := by
  rw [failures_append]
  simp [failures]

theorem reachesAgain_iff {threshold : Nat} (hpos : 0 < threshold) (limit : Nat)
    (aliases : List Nat) (calls : List (Bool × Nat)) (a : Nat) :
    ReachesAgain limit aliases threshold calls a ↔ failures a calls + threshold ≤ limit := by
  have hcont : ∀ n, ((initVar aliases).countFails limit
      (calls ++ (false, a) :: List.replicate n (true, a))).contFails a =
        min n (limit - failures a calls) := by
    intro n
    rw [(counters_after limit aliases _ a).2, streak_after_success, failures_after_success,
      Nat.add_sub_cancel]
  constructor
  · rintro ⟨n, hn⟩
    rw [hcont] at hn
    omega
  · intro hroom
    refine ⟨threshold, ?_⟩
    rw [hcont]
    omega

/-- **The continuous-failure counter.**  It is the streak of the host exactly
when there is no failure since the last success, or none before it, or at most
`ST_LIMIT` in all; and a host that keeps failing gets to the threshold again
exactly when its failures leave room for as many more. -/
theorem streak_counted_iff (aliases : List Nat) (calls : List (Bool × Nat)) (a : Nat)
    {threshold : Nat} (hpos : 0 < threshold) :
    (StreakCounted stLimit aliases calls a ↔
      streak a calls = 0 ∨ failures a calls = streak a calls ∨ failures a calls ≤ stLimit) ∧
    (ReachesAgain stLimit aliases threshold calls a ↔
      failures a calls + threshold ≤ stLimit) :=
  ⟨streakCounted_iff (by decide) aliases calls a, reachesAgain_iff hpos stLimit aliases calls a⟩

/-- Two failures, a success and a failure: the counter is one, and the default
threshold is within reach. -/
theorem short_streak_counted :
    StreakCounted stLimit [1] [(true, 1), (true, 1), (false, 1), (true, 1)] 1 ∧
      ReachesAgain stLimit [1] 10 [(true, 1), (true, 1)] 1 :=
  ⟨(streak_counted_iff [1] _ 1 (show 0 < 10 by decide)).1.mpr (Or.inr (Or.inr (by decide))),
    (streak_counted_iff [1] _ 1 (by decide)).2.mpr (by decide)⟩

/-- **A streak that is not counted.**  After `ST_LIMIT` failures and a success, the
next failure leaves the counter at zero, and no number of failures brings it to
the default threshold. -/
theorem streak_lost_at_limit :
    ¬ StreakCounted stLimit [1] (List.replicate stLimit (true, 1) ++ [(false, 1), (true, 1)]) 1 ∧
      ¬ ReachesAgain stLimit [1] 10 (List.replicate stLimit (true, 1)) 1 := by
  have hall : failures 1 (List.replicate stLimit (true, 1)) = stLimit := List.count_replicate_self
  constructor
  · have hstreak := streak_after_success (List.replicate stLimit (true, 1)) 1 1
    have hfailures := failures_after_success (List.replicate stLimit (true, 1)) 1 1
    rw [hall] at hfailures
    intro h
    have hcases := (streakCounted_iff (by decide) _ _ _).mp h
    simp only [List.replicate_one] at hstreak hfailures
    rw [hstreak, hfailures] at hcases
    revert hcases
    unfold stLimit
    omega
  · rw [reachesAgain_iff (by decide), hall]
    omega

end FailCounters

end KvProxy
