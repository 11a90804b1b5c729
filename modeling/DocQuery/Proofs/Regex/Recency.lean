import DocQuery.Proofs.Regex.Cache
import Mathlib.Data.List.Perm.Basic
import Mathlib.Data.List.Nodup

/-!
# Which patterns are kept

The marks of the clock put the entries of a store in order, and this order is that of the requests:
at every moment the store holds as many of the patterns that were asked for last as it has room for.
The entries themselves may stand in any order, and change it at any time: no two marks are the same,
so there is one entry that was not asked for the longest.

Main names:

* `Cache.recent` — the patterns that were asked for, the latest first;
* `Cache.Recency` — the invariant, kept by each of the operations of a request;
* `Cache.Reached`, `Cache.recency_of_reached` — it holds after every sequence of requests;
* `Cache.keeps_most_recent` — what is kept, and what requests that fail leave alone.
-/

namespace DocQuery.Regex.Cache

/-! ## Different members of a list -/

section Lists

variable {α : Type} [DecidableEq α] {a : α} {as bs l : List α} {n : Nat}

theorem eraseDups_filter (p : α → Bool) (l : List α) :
    (l.filter p).eraseDups = l.eraseDups.filter p := by
  -- The lists get shorter where an element is taken out, not only at the front.
  induction hlength : l.length using Nat.strongRecOn generalizing l with
  | ind length ih =>
      cases l with
      | nil => rfl
      | cons a l =>
          have hshorter : (l.filter fun b => !b == a).length < length := by
            have hle := List.length_filter_le (fun b => !b == a) l
            rw [List.length_cons] at hlength
            omega
          have hothers := ih _ hshorter (l.filter fun b => !b == a) rfl
          rw [List.filter_filter] at hothers
          rw [List.eraseDups_cons]
          cases ha : p a with
          | true =>
              rw [List.filter_cons_of_pos ha, List.filter_cons_of_pos ha, List.eraseDups_cons,
                List.filter_filter, ← hothers]
              simp only [Bool.and_comm]
          | false =>
              rw [List.filter_cons_of_neg (by simp [ha]), List.filter_cons_of_neg (by simp [ha]),
                ← hothers]
              congr 1
              refine List.filter_congr fun b _ => ?_
              by_cases hb : b = a
              · simp [hb, ha]
              · simp [hb]

theorem nodup_eraseDups (l : List α) : l.eraseDups.Nodup := by
  induction hlength : l.length using Nat.strongRecOn generalizing l with
  | ind length ih =>
      cases l with
      | nil => exact List.nodup_nil
      | cons a l =>
          have hle := List.length_filter_le (fun b => !b == a) l
          rw [List.length_cons] at hlength
          rw [List.eraseDups_cons, List.nodup_cons]
          refine ⟨?_, ih _ (by omega) _ rfl⟩
          simp

/-- Taking out what is not among the first members does not change them. -/
theorem take_filter_of_notMem (ha : a ∉ l.take n) : (l.filter (· != a)).take n = l.take n := by
  induction l generalizing n with
  | nil => rfl
  | cons b l ih =>
      cases n with
      | zero => rfl
      | succ n =>
          rw [List.take_succ_cons, List.mem_cons, not_or] at ha
          rw [List.filter_cons_of_pos (by simpa using Ne.symm ha.1), List.take_succ_cons,
            List.take_succ_cons, ih ha.2]

/-- Taking out one of the first members leaves the others. -/
theorem take_filter_of_mem (hl : l.Nodup) (htake : l.take (n + 1) = as ++ a :: bs) :
    (l.filter (· != a)).take n = as ++ bs := by
  induction as generalizing l n with
  | nil =>
      cases l with
      | nil => cases htake
      | cons b l =>
          rw [List.take_succ_cons, List.nil_append, List.cons.injEq] at htake
          obtain ⟨rfl, rfl⟩ := htake
          have hb := (List.nodup_cons.mp hl).1
          rw [List.filter_cons_of_neg (by simp), List.nil_append]
          exact take_filter_of_notMem fun hmem => hb (List.mem_of_mem_take hmem)
  | cons b as ih =>
      cases l with
      | nil => cases htake
      | cons b' l =>
          rw [List.take_succ_cons, List.cons_append, List.cons.injEq] at htake
          obtain ⟨rfl, htake⟩ := htake
          obtain ⟨hb, hl⟩ := List.nodup_cons.mp hl
          have hmem : a ∈ l.take n := by
            rw [htake]
            simp
          have hne : b' ≠ a := by
            rintro rfl
            exact hb (List.mem_of_mem_take hmem)
          cases n with
          | zero => simp at htake
          | succ n =>
              rw [List.filter_cons_of_pos (by simpa using hne), List.take_succ_cons, ih hl htake,
                List.cons_append]

end Lists

/-! ## Recent patterns -/

/-- The different patterns that were asked for and can be read, the latest first. -/
def recent (requests : List String) : List String :=
  (requests.reverse.filter fun pattern => (Regex.read pattern).isSome).eraseDups

variable {requests : List String} {cache : Cache} {pattern : String} {r : Regex} {capacity : Nat}

theorem nodup_recent (requests : List String) : (recent requests).Nodup :=
  nodup_eraseDups _

/-- A pattern that can be read becomes the latest. -/
theorem recent_of_read (requests : List String) (hread : Regex.read pattern = some r) :
    recent (requests ++ [pattern]) = pattern :: (recent requests).filter (· != pattern) := by
  unfold recent
  rw [List.reverse_append, List.reverse_singleton, List.singleton_append,
    List.filter_cons_of_pos (by rw [hread]; rfl), List.eraseDups_cons, ← eraseDups_filter]
  rfl

/-- A request for what is no pattern is as if it had not been made. -/
theorem recent_of_unread (before after : List String) (hread : Regex.read pattern = none) :
    recent (before ++ pattern :: after) = recent (before ++ after) := by
  unfold recent
  simp [List.filter_append, hread]

/-! ## The invariant -/

/-- The entries of a store, put in the order of their marks, are the latest patterns. -/
structure Recency (requests : List String) (cache : Cache) (ordered : List Entry) : Prop where
  perm : ordered.Perm cache.entries
  patterns : ordered.map (·.pattern) = (recent requests).take cache.capacity
  marks : ordered.Pairwise fun a b => b.lastUsed < a.lastUsed
  clock : ∀ entry ∈ ordered, entry.lastUsed ≤ cache.clock

namespace Recency

variable {ordered : List Entry}

theorem new (capacity : Nat) : Recency [] (Cache.new capacity) [] where
  perm := .nil
  patterns := List.take_nil.symm
  marks := .nil
  clock := nofun

/-- The order in which the entries stand does not matter. -/
theorem reorder (hcache : Recency requests cache ordered) {entries : List Entry}
    (hentries : entries.Perm cache.entries) :
    Recency requests { cache with entries := entries } ordered :=
  { hcache with perm := hcache.perm.trans hentries.symm }

theorem tick (hcache : Recency requests cache ordered) : Recency requests cache.tick ordered :=
  { hcache with clock := fun entry hentry => Nat.le_succ_of_le (hcache.clock entry hentry) }

theorem nodup (hcache : Recency requests cache ordered) : (ordered.map (·.pattern)).Nodup := by
  rw [hcache.patterns]
  exact (nodup_recent requests).sublist (List.take_sublist _ _)

theorem size_eq (hcache : Recency requests cache ordered) :
    cache.size = min cache.capacity (recent requests).length := by
  unfold size
  rw [← hcache.perm.length_eq, ← List.length_map, hcache.patterns, List.length_take]

/-- What is kept for a pattern, if it is one of the latest. -/
theorem find_eq_none (hcache : Recency requests cache ordered) (hfind : cache.find? pattern = none) :
    pattern ∉ (recent requests).take cache.capacity := by
  rw [← hcache.patterns, List.mem_map]
  rintro ⟨entry, hentry, rfl⟩
  unfold find? at hfind
  rw [Option.map_eq_none_iff, List.find?_eq_none] at hfind
  exact hfind entry (hcache.perm.mem_iff.mp hentry) (by simp)

/-- A pattern that is kept becomes the latest. -/
theorem touch (hcache : Recency requests cache ordered)
    (hfind : cache.find? pattern = some r) (hread : Regex.read pattern = some r) :
    ∃ ordered', Recency (requests ++ [pattern]) (cache.tick.touch pattern) ordered' := by
  obtain ⟨entry, hentry, hpattern, _⟩ := exists_of_find hfind
  obtain ⟨before, after, rfl⟩ := List.append_of_mem (hcache.perm.mem_iff.mpr hentry)
  have hnodup := hcache.nodup
  have hpatterns := hcache.patterns
  rw [List.map_append, List.map_cons, hpattern] at hnodup hpatterns
  obtain ⟨hbefore, hafter⟩ : pattern ∉ before.map (·.pattern) ∧ pattern ∉ after.map (·.pattern) := by
    rw [List.nodup_middle, List.nodup_cons, List.mem_append, not_or] at hnodup
    exact hnodup.1
  -- Marking changes the entry of the pattern only.
  have hsame : ∀ entries : List Entry, pattern ∉ entries.map (·.pattern) →
      entries.map (Entry.mark pattern (cache.clock + 1)) = entries := by
    intro entries hentries
    refine (List.map_congr_left fun other hother => ?_).trans (List.map_id entries)
    have hne : other.pattern ≠ pattern := fun heq => hentries (List.mem_map.mpr ⟨other, hother, heq⟩)
    rw [Entry.mark, if_neg (by simpa using hne)]
    rfl
  let marked : Entry := { entry with lastUsed := cache.clock + 1 }
  have hmark : entry.mark pattern (cache.clock + 1) = marked :=
    if_pos (by simpa using hpattern)
  have hlater : ∀ other ∈ before ++ after, other ∈ before ++ entry :: after := fun other hother => by
    rw [List.mem_append] at hother
    rw [List.mem_append, List.mem_cons]
    exact hother.imp_right Or.inr
  refine ⟨marked :: (before ++ after), ?_, ?_, ?_, ?_⟩
  · have hmarked := hcache.perm.map (Entry.mark pattern (cache.clock + 1))
    rw [List.map_append, List.map_cons, hsame before hbefore, hsame after hafter, hmark] at hmarked
    exact List.perm_middle.symm.trans hmarked
  · rw [recent_of_read requests hread, List.map_cons, List.map_append]
    show entry.pattern :: _ = List.take cache.capacity _
    cases hcapacity : cache.capacity with
    | zero =>
        rw [hcapacity] at hpatterns
        simp at hpatterns
    | succ n =>
        rw [hcapacity] at hpatterns
        rw [hpattern, List.take_succ_cons, take_filter_of_mem (nodup_recent requests) hpatterns.symm]
  · refine List.pairwise_cons.mpr ⟨fun other hother => ?_, hcache.marks.sublist ?_⟩
    · exact Nat.lt_succ_of_le (hcache.clock other (hlater other hother))
    · exact (List.Sublist.refl before).append (List.sublist_cons_self entry after)
  · refine List.forall_mem_cons.mpr ⟨Nat.le_refl _, fun other hother => ?_⟩
    exact Nat.le_succ_of_le (hcache.clock other (hlater other hother))

theorem oldest?_spec {entries : List Entry} (hentries : entries ≠ []) :
    ∃ oldest, oldest? entries = some oldest ∧ oldest ∈ entries ∧
      ∀ entry ∈ entries, oldest.lastUsed ≤ entry.lastUsed := by
  induction entries with
  | nil => exact absurd rfl hentries
  | cons entry entries ih =>
      cases entries with
      | nil => exact ⟨entry, rfl, List.mem_cons_self .., by simp⟩
      | cons next entries =>
          obtain ⟨other, hother, hmem, hleast⟩ := ih (List.cons_ne_nil _ _)
          rw [oldest?, hother]
          dsimp only
          split
          · rename_i hlt
            exact ⟨other, rfl, List.mem_cons_of_mem _ hmem,
              List.forall_mem_cons.mpr ⟨Nat.le_of_lt hlt, hleast⟩⟩
          · rename_i hge
            exact ⟨entry, rfl, List.mem_cons_self .., List.forall_mem_cons.mpr ⟨Nat.le_refl _,
              fun e he => Nat.le_trans (Nat.le_of_not_lt hge) (hleast e he)⟩⟩

/-- The entry with the earliest mark is the last one in the order of the marks, wherever it stands. -/
theorem oldest?_eq {before : List Entry} {last : Entry}
    (hcache : Recency requests cache (before ++ [last])) : oldest? cache.entries = some last := by
  have hmem : ∀ entry, entry ∈ cache.entries ↔ entry ∈ before ∨ entry = last := by
    intro entry
    rw [← hcache.perm.mem_iff, List.mem_append, List.mem_singleton]
  have hlast := (hmem last).mpr (Or.inr rfl)
  obtain ⟨oldest, holdest, hoccurs, hleast⟩ := oldest?_spec (List.ne_nil_of_mem hlast)
  rw [holdest]
  rcases (hmem oldest).mp hoccurs with hbefore | rfl
  · have hlt := (List.pairwise_append.mp hcache.marks).2.2 oldest hbefore last (by simp)
    exact absurd (hleast last hlast) (Nat.not_le.mpr hlt)
  · rfl

/-- With room made there is place for one more: all of the entries are left, or all but the last. -/
theorem makeRoom (hcache : Recency requests cache ordered) (hcapacity : cache.capacity ≠ 0) :
    ∃ left : List Entry, left.Perm cache.makeRoom.entries ∧ left.Sublist ordered ∧
      left.map (·.pattern) = (recent requests).take (cache.capacity - 1) := by
  have hsize : ordered.length = cache.size := hcache.perm.length_eq
  have htotal := hcache.size_eq
  unfold Cache.makeRoom
  split
  · rename_i hroom
    refine ⟨ordered, hcache.perm, List.Sublist.refl _, ?_⟩
    rw [hcache.patterns, List.take_of_length_le (by omega), List.take_of_length_le (by omega)]
  · rename_i hfull
    obtain ⟨before, last, rfl⟩ : ∃ before last, ordered = before ++ [last] := by
      refine ⟨ordered.dropLast, ordered.getLast ?_, (List.dropLast_append_getLast _).symm⟩
      rintro rfl
      rw [List.length_nil] at hsize
      omega
    have hnodup := hcache.nodup
    rw [List.map_append, List.map_singleton, List.nodup_append] at hnodup
    -- The oldest entry is the last one in order, and no other one has its pattern.
    have hleft : (before ++ [last]).filter (·.pattern != last.pattern) = before := by
      rw [List.filter_append, List.filter_cons_of_neg (by simp), List.filter_nil, List.append_nil,
        List.filter_eq_self]
      intro entry hentry
      have hne := hnodup.2.2 entry.pattern (List.mem_map_of_mem hentry) last.pattern (by simp)
      simpa using hne
    rw [oldest?_eq hcache]
    refine ⟨before, ?_, List.sublist_append_left _ _, ?_⟩
    · have hperm := hcache.perm.filter (·.pattern != last.pattern)
      rwa [hleft] at hperm
    · have hpatterns := congrArg List.dropLast hcache.patterns
      rw [List.map_append, List.map_singleton, List.dropLast_concat] at hpatterns
      rw [hpatterns, List.dropLast_eq_take, List.take_take, List.length_take]
      congr 1
      omega

/-- A pattern that was not kept becomes the latest. -/
theorem insert (hcache : Recency requests cache ordered) (hcapacity : cache.capacity ≠ 0)
    (hfind : cache.find? pattern = none) (hread : Regex.read pattern = some r) :
    ∃ ordered', Recency (requests ++ [pattern]) (cache.makeRoom.tick.insert pattern r) ordered' := by
  obtain ⟨left, hperm, hsublist, hpatterns⟩ := hcache.makeRoom hcapacity
  have hsame : cache.makeRoom.capacity = cache.capacity ∧ cache.makeRoom.clock = cache.clock := by
    unfold Cache.makeRoom
    split
    · exact ⟨rfl, rfl⟩
    · split <;> exact ⟨rfl, rfl⟩
  obtain ⟨hroom, hclock⟩ := hsame
  have hearlier : ∀ entry ∈ left, entry.lastUsed ≤ cache.makeRoom.clock := fun entry hentry => by
    rw [hclock]
    exact hcache.clock entry (hsublist.subset hentry)
  refine ⟨⟨pattern, r, cache.makeRoom.clock + 1⟩ :: left, hperm.cons _, ?_, ?_, ?_⟩
  · rw [recent_of_read requests hread, List.map_cons, hpatterns]
    show pattern :: _ = List.take cache.makeRoom.capacity _
    have hunkept := hcache.find_eq_none hfind
    rw [hroom]
    cases hn : cache.capacity with
    | zero => exact absurd hn hcapacity
    | succ n =>
        rw [hn] at hunkept
        have hbefore : pattern ∉ (recent requests).take n := fun hmem =>
          hunkept (List.take_subset_take_left _ (Nat.le_succ n) hmem)
        rw [List.take_succ_cons, Nat.add_sub_cancel, take_filter_of_notMem hbefore]
  · exact List.pairwise_cons.mpr ⟨fun entry hentry => Nat.lt_succ_of_le (hearlier entry hentry),
      hcache.marks.sublist hsublist⟩
  · exact List.forall_mem_cons.mpr ⟨Nat.le_refl _, fun entry hentry =>
      Nat.le_succ_of_le (hearlier entry hentry)⟩

/-- The step: after a request the entries are the latest patterns again. -/
theorem request (hcache : Recency requests cache ordered) (hfaithful : cache.Faithful)
    (pattern : String) :
    ∃ ordered', Recency (requests ++ [pattern]) (cache.request pattern).2 ordered' := by
  rcases request_cases cache pattern with ⟨r, hfind, hrequest⟩ |
    ⟨hfind, ⟨hread, hrequest⟩ | ⟨r, hread, ⟨hcapacity, hrequest⟩ | ⟨hcapacity, hrequest⟩⟩⟩ <;>
    rw [hrequest]
  · exact hcache.touch hfind (hfaithful.find hfind)
  · refine ⟨ordered, { hcache.tick with patterns := ?_ }⟩
    rw [recent_of_unread requests [] hread, List.append_nil]
    exact hcache.patterns
  · refine ⟨ordered, { hcache.tick with patterns := ?_ }⟩
    have hpatterns := hcache.patterns
    rw [hcapacity, List.take_zero] at hpatterns
    show _ = List.take cache.capacity _
    rw [hpatterns, hcapacity, List.take_zero]
  · exact hcache.tick.insert hcapacity hfind hread

end Recency

/-! ## Runs -/

/-- The stores that are reached by requests, one after the other. The entries may stand in any order,
and change it at any time. -/
inductive Reached (capacity : Nat) : List String → Cache → Prop
  | new : Reached capacity [] (.new capacity)
  | reorder {requests : List String} {cache : Cache} {entries : List Entry}
      (hcache : Reached capacity requests cache) (hentries : entries.Perm cache.entries) :
      Reached capacity requests { cache with entries := entries }
  | request {requests : List String} {cache : Cache} (hcache : Reached capacity requests cache)
      (pattern : String) : Reached capacity (requests ++ [pattern]) (cache.request pattern).2

/-- A request does not change how many patterns are kept at most. -/
theorem capacity_request (cache : Cache) (pattern : String) :
    (cache.request pattern).2.capacity = cache.capacity := by
  rcases request_cases cache pattern with ⟨r, _, hrequest⟩ |
    ⟨_, ⟨_, hrequest⟩ | ⟨r, _, ⟨_, hrequest⟩ | ⟨_, hrequest⟩⟩⟩ <;> rw [hrequest]
  · rfl
  · rfl
  · rfl
  · show cache.tick.makeRoom.capacity = _
    unfold makeRoom
    split
    · rfl
    · split <;> rfl

theorem recency_of_reached (hcache : Reached capacity requests cache) :
    cache.capacity = capacity ∧ cache.Faithful ∧ ∃ ordered, Recency requests cache ordered := by
  induction hcache with
  | new => exact ⟨rfl, faithful_new capacity, [], .new capacity⟩
  | reorder _ hentries ih =>
      obtain ⟨hcapacity, hfaithful, ordered, hrecency⟩ := ih
      exact ⟨hcapacity, fun entry hentry => hfaithful entry (hentries.mem_iff.mp hentry), ordered,
        hrecency.reorder hentries⟩
  | request _ pattern ih =>
      obtain ⟨hcapacity, hfaithful, ordered, hrecency⟩ := ih
      exact ⟨(capacity_request _ pattern).trans hcapacity, faithful_request hfaithful pattern,
        hrecency.request hfaithful pattern⟩

/-- The patterns that are kept. -/
def patterns (cache : Cache) : List String :=
  cache.entries.map (·.pattern)

theorem patterns_perm (hcache : Reached capacity requests cache) :
    cache.patterns.Perm ((recent requests).take capacity) := by
  obtain ⟨rfl, _, ordered, hrecency⟩ := recency_of_reached hcache
  rw [← hrecency.patterns]
  exact (hrecency.perm.map (·.pattern)).symm

/-- The store is one of the patterns that were asked for last. After any requests, and in whichever
order the entries stand,
* the answer to each request is what the pattern reads as, and with each pattern its own regular
  expression is kept;
* no more patterns are kept than there is room for: of all that were asked for and can be read, the
  latest, each of them once, and all of them if there is room;
* a request for what cannot be read leaves the entries alone, and whatever is asked for after it, the
  same patterns are kept as if it had not been made. -/
theorem keeps_most_recent (hcache : Reached capacity requests cache) :
    (∀ pattern, (cache.request pattern).1 = Regex.read pattern) ∧
      (∀ entry ∈ cache.entries, Regex.read entry.pattern = some entry.regex) ∧
      cache.size ≤ capacity ∧ cache.size = min capacity (recent requests).length ∧
      cache.patterns.Perm ((recent requests).take capacity) ∧
      ∀ pattern, Regex.read pattern = none →
        (cache.request pattern).2.entries = cache.entries ∧
          ∀ (later : List String) (other other' : Cache),
            Reached capacity (requests ++ later) other →
            Reached capacity (requests ++ pattern :: later) other' →
            other.patterns.Perm other'.patterns := by
  obtain ⟨hcapacity, hfaithful, ordered, hrecency⟩ := recency_of_reached hcache
  have hsize : cache.size = min capacity (recent requests).length := hcapacity ▸ hrecency.size_eq
  refine ⟨request_eq_read hfaithful, hfaithful, hsize ▸ Nat.min_le_left _ _, hsize,
    patterns_perm hcache, fun pattern hread => ⟨?_, ?_⟩⟩
  · have hanswer := request_eq_read hfaithful pattern
    rcases request_cases cache pattern with ⟨r, _, hrequest⟩ |
      ⟨_, ⟨_, hrequest⟩ | ⟨r, hsome, _⟩⟩
    · rw [hrequest, hread] at hanswer
      cases hanswer
    · rw [hrequest]
      rfl
    · rw [hread] at hsome
      cases hsome
  · intro later other other' hother hother'
    have hperm := patterns_perm hother'
    rw [recent_of_unread requests later hread] at hperm
    exact (patterns_perm hother).trans hperm.symm

/-- With room for two patterns, `b` goes for `c`, since `a` was asked for again. -/
theorem keeps_most_recent_again : ∃ cache,
    Reached 2 ["a", "b", "(", "a", "c"] cache ∧ cache.patterns.Perm ["c", "a"] := by
  have hcache : Reached 2 ["a", "b", "(", "a", "c"] _ :=
    ((((Reached.new.request "a").request "b").request "(").request "a").request "c"
  have hrecent : (recent ["a", "b", "(", "a", "c"]).take 2 = ["c", "a"] := by
    decide +kernel
  refine ⟨_, hcache, ?_⟩
  rw [← hrecent]
  exact (keeps_most_recent hcache).2.2.2.2.1

end DocQuery.Regex.Cache
