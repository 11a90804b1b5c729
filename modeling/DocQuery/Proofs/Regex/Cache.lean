import DocQuery.Regex.Cache

/-!
# What the store of patterns answers

A store keeps with a pattern what it reads as. As long as that is so, asking the store is the same
as reading the pattern, however many patterns are kept and whichever have been dropped.

Main names:

* `Cache.request_cases` — what a request can do;
* `Cache.Faithful` — what is kept is what the patterns read as;
* `Cache.faithful_new`, `Cache.faithful_request` — it stays so;
* `Cache.request_eq_read` — the answer.
-/

namespace DocQuery.Regex.Cache

variable {cache : Cache} {pattern : String} {r : Regex}

/-! ## Requests -/

/-- What a request can do: a pattern that is kept is marked, one that is not is read, and kept if
there is room for any. -/
theorem request_cases (cache : Cache) (pattern : String) :
    (∃ r, cache.find? pattern = some r ∧
      cache.request pattern = (some r, cache.tick.touch pattern)) ∨
    (cache.find? pattern = none ∧
      ((Regex.read pattern = none ∧ cache.request pattern = (none, cache.tick)) ∨
        ∃ r, Regex.read pattern = some r ∧
          ((cache.capacity = 0 ∧ cache.request pattern = (some r, cache.tick)) ∨
            cache.capacity ≠ 0 ∧
              cache.request pattern = (some r, cache.tick.makeRoom.tick.insert pattern r)))) := by
  have hsame : cache.tick.find? pattern = cache.find? pattern := rfl
  unfold request
  dsimp only
  rw [hsame]
  cases hfind : cache.find? pattern with
  | some r => exact Or.inl ⟨r, rfl, rfl⟩
  | none =>
      refine Or.inr ⟨rfl, ?_⟩
      cases hread : Regex.read pattern with
      | none => exact Or.inl ⟨rfl, rfl⟩
      | some r =>
          refine Or.inr ⟨r, rfl, ?_⟩
          dsimp only
          split
          · rename_i hcapacity
            exact Or.inl ⟨hcapacity, rfl⟩
          · rename_i hcapacity
            exact Or.inr ⟨hcapacity, rfl⟩

theorem exists_of_find (hfind : cache.find? pattern = some r) :
    ∃ entry ∈ cache.entries, entry.pattern = pattern ∧ entry.regex = r := by
  unfold find? at hfind
  obtain ⟨entry, hentry, rfl⟩ := Option.map_eq_some_iff.mp hfind
  exact ⟨entry, List.mem_of_find?_eq_some hentry, by simpa using List.find?_some hentry, rfl⟩

theorem mem_touch {entry : Entry} (hentry : entry ∈ (cache.touch pattern).entries) :
    ∃ kept ∈ cache.entries, entry.pattern = kept.pattern ∧ entry.regex = kept.regex := by
  unfold touch at hentry
  obtain ⟨kept, hkept, rfl⟩ := List.mem_map.mp hentry
  refine ⟨kept, hkept, ?_⟩
  unfold Entry.mark
  split <;> exact ⟨rfl, rfl⟩

theorem mem_of_mem_makeRoom {entry : Entry} (hentry : entry ∈ cache.makeRoom.entries) :
    entry ∈ cache.entries := by
  unfold makeRoom at hentry
  split at hentry
  · exact hentry
  · split at hentry
    · exact hentry
    · exact (List.mem_filter.mp hentry).1

/-! ## Answers -/

/-- With every pattern its regular expression is kept. -/
def Faithful (cache : Cache) : Prop :=
  ∀ entry ∈ cache.entries, Regex.read entry.pattern = some entry.regex

theorem faithful_new (capacity : Nat) : (new capacity).Faithful := by
  intro entry hentry
  cases hentry

theorem Faithful.find (hcache : cache.Faithful) (hfind : cache.find? pattern = some r) :
    Regex.read pattern = some r := by
  obtain ⟨entry, hentry, rfl, rfl⟩ := exists_of_find hfind
  exact hcache entry hentry

theorem Faithful.touch (hcache : cache.Faithful) (pattern : String) :
    (cache.touch pattern).Faithful := by
  intro entry hentry
  obtain ⟨kept, hkept, hpattern, hregex⟩ := mem_touch hentry
  rw [hpattern, hregex]
  exact hcache kept hkept

theorem Faithful.makeRoom (hcache : cache.Faithful) : cache.makeRoom.Faithful :=
  fun entry hentry => hcache entry (mem_of_mem_makeRoom hentry)

theorem Faithful.insert (hcache : cache.Faithful) (hread : Regex.read pattern = some r) :
    (cache.insert pattern r).Faithful :=
  List.forall_mem_cons.mpr ⟨hread, hcache⟩

/-- The store answers with what the pattern reads as. -/
theorem request_eq_read (hcache : cache.Faithful) (pattern : String) :
    (cache.request pattern).1 = Regex.read pattern := by
  rcases request_cases cache pattern with ⟨r, hfind, hrequest⟩ |
    ⟨_, ⟨hread, hrequest⟩ | ⟨r, hread, ⟨_, hrequest⟩ | ⟨_, hrequest⟩⟩⟩
  · rw [hrequest, hcache.find hfind]
  all_goals rw [hrequest, hread]

theorem faithful_request (hcache : cache.Faithful) (pattern : String) :
    (cache.request pattern).2.Faithful := by
  have hticked : cache.tick.Faithful := hcache
  rcases request_cases cache pattern with ⟨r, hfind, hrequest⟩ |
    ⟨_, ⟨hread, hrequest⟩ | ⟨r, hread, ⟨_, hrequest⟩ | ⟨_, hrequest⟩⟩⟩ <;> rw [hrequest]
  · exact hticked.touch pattern
  · exact hticked
  · exact hticked
  · exact Faithful.insert (show cache.tick.makeRoom.tick.Faithful from hticked.makeRoom) hread

end DocQuery.Regex.Cache
