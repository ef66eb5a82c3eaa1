import Mathlib.Data.List.Rotate
import Mathlib.Data.List.Sort

/-! Workers of the gateway, and the ring their URLs are hashed to. -/
namespace Sglang.Gateway

open List

inductive WorkerType
  | regular
  | prefill (bootstrapPort : Option UInt16)
  | decode
deriving DecidableEq

inductive ConnectionMode
  | http
  | grpc (port : Option UInt16)
deriving DecidableEq

/-- What does not change in a worker. Two workers may be alike and still be different objects. -/
structure Worker where
  object : Nat
  url : String
  modelId : String
  workerType : WorkerType
  connectionMode : ConnectionMode
deriving DecidableEq

/-! ### The hash ring -/

/-- Places of a worker on the ring. -/
def virtualNodesPerWorker : Nat := 150

/-- Ring positions with the URL that is there. -/
structure HashRing where
  entries : List (UInt64 × String)
  sorted : entries.Pairwise fun e e' => e.1 ≤ e'.1

namespace HashRing

/-- Eight bytes, the lowest first. -/
def toLeBytes (n : UInt64) : List UInt8 :=
  (List.range 8).map fun i => (n >>> UInt64.ofNat (8 * i)).toUInt8

section
-- the first eight bytes of a hash, as a number
variable (blake3 : List UInt8 → UInt64)

def hashPosition (s : String) : UInt64 := blake3 s.toUTF8.toList

/-- The places of a worker before they are sorted. -/
def virtualNodes (url : String) : List (UInt64 × String) :=
  (List.range virtualNodesPerWorker).map fun vnode =>
    (blake3 (url.toUTF8.toList ++ "#".toUTF8.toList ++ toLeBytes (UInt64.ofNat vnode)), url)

def new (workers : List Worker) : HashRing where
  entries :=
    (workers.flatMap fun w => virtualNodes blake3 w.url).mergeSort fun e e' => decide (e.1 ≤ e'.1)
  sorted := by
    refine (pairwise_mergeSort ?_ ?_ _).imp fun h => of_decide_eq_true h
    · intro a b c hab hbc
      exact decide_eq_true (UInt64.le_trans (of_decide_eq_true hab) (of_decide_eq_true hbc))
    · intro a b
      simpa using UInt64.le_total a.1 b.1

/-- The first URL at or after the position of a key that will do, around the ring. -/
def findHealthyUrl (ring : HashRing) (key : String) (isHealthy : String → Bool) : Option String :=
  let keyPos := hashPosition blake3 key
  let start := (ring.entries.takeWhile fun e => e.1 < keyPos).length
  -- a URL that was checked once is skipped later: it would not do again
  ((List.range ring.entries.length).filterMap
    fun i => ring.entries[(start + i) % ring.entries.length]?.map (·.2)).find? isHealthy

def urls (ring : HashRing) : List String := ring.entries.map (·.2)

variable {ring : HashRing} {key url : String} {isHealthy : String → Bool}

lemma filterMap_getElem?_range (l : List (UInt64 × String)) :
    (List.range l.length).filterMap (l[·]?) = l := by
  induction l with
  | nil => rfl
  | cons e l ih =>
    rw [length_cons, range_succ_eq_map, filterMap_cons_some getElem?_cons_zero, filterMap_map]
    exact congrArg _ ih

lemma walk_eq (start : Nat) : (List.range ring.entries.length).filterMap
    (fun i => ring.entries[(start + i) % ring.entries.length]?.map (·.2)) =
    (ring.entries.rotate start).map (·.2) := by
  rw [← map_filterMap]
  congr 1
  conv_rhs => rw [← filterMap_getElem?_range (ring.entries.rotate start), length_rotate]
  refine filterMap_congr fun i hi => ?_
  rw [getElem?_rotate (mem_range.mp hi), Nat.add_comm]

lemma mem_walk {start : Nat} :
    url ∈ (List.range ring.entries.length).filterMap
    (fun i => ring.entries[(start + i) % ring.entries.length]?.map (·.2)) ↔
      url ∈ ring.urls := by
  rw [walk_eq, urls, mem_map, mem_map]
  simp

lemma mem_urls_new {workers : List Worker} :
    url ∈ (new blake3 workers).urls ↔ ∃ w ∈ workers, w.url = url := by
  simp only [urls, new, mem_map, mem_mergeSort, mem_flatMap, virtualNodes]
  constructor
  · rintro ⟨_, ⟨w, hw, _, _, rfl⟩, rfl⟩
    exact ⟨w, hw, rfl⟩
  · rintro ⟨w, hw, rfl⟩
    exact ⟨_, ⟨w, hw, 0, mem_range.mpr (by decide), rfl⟩, rfl⟩

/-! ### Rings without the URLs that will not do -/

lemma rotate_takeWhile (pos : UInt64) :
    ring.entries.rotate (ring.entries.takeWhile fun e => e.1 < pos).length =
    ring.entries.filter (fun e => ¬e.1 < pos) ++ ring.entries.filter (fun e => e.1 < pos) := by
  have hsplit : ring.entries.dropWhile (fun e => e.1 < pos) = ring.entries.filter
    (fun e => ¬e.1 < pos) ∧
      ring.entries.takeWhile (fun e => e.1 < pos) = ring.entries.filter (fun e => e.1 < pos) := by
    have hsorted := ring.sorted
    generalize ring.entries = l at hsorted
    induction l with
    | nil => exact ⟨rfl, rfl⟩
    | cons e l ih =>
      obtain ⟨hle, hsorted⟩ := pairwise_cons.mp hsorted
      by_cases hlt : e.1 < pos
      · simp [hlt, ih hsorted]
      · -- the places after it are not before the position either
        have hge : ∀ e' ∈ e :: l, ¬e'.1 < pos := by
          intro e' he' hlt'
          rcases mem_cons.mp he' with rfl | he'
          · exact hlt hlt'
          · exact hlt (UInt64.lt_of_le_of_lt (hle e' he') hlt')
        rw [filter_eq_self.mpr fun e' he' => decide_eq_true (hge e' he'),
          filter_eq_nil_iff.mpr fun e' he' => by simpa using hge e' he']
        simp [hlt]
  have hrotate :=
    rotate_append_length_eq (ring.entries.takeWhile fun e => e.1 < pos)
    (ring.entries.dropWhile fun e => e.1 < pos)
  rw [takeWhile_append_dropWhile] at hrotate
  rw [← hsplit.1, ← hsplit.2, hrotate]

lemma findHealthyUrl_eq :
    ring.findHealthyUrl blake3 key isHealthy = (let l := ring.entries.filter (isHealthy ·.2)
    (l.filter (fun e => ¬e.1 < hashPosition blake3 key) ++ l.filter
      (fun e => e.1 < hashPosition blake3 key)).head?.map (·.2)) := by
  simp only [findHealthyUrl, walk_eq, rotate_takeWhile, find?_map]
  rw [← head?_filter, filter_append]
  simp only [filter_filter, Function.comp_def, Bool.and_comm]

lemma filter_flatMap_virtualNodes (workers : List Worker) (isHealthy : String → Bool) :
    (workers.flatMap fun w => virtualNodes blake3 w.url).filter (isHealthy ·.2) =
      (workers.filter (isHealthy ·.url)).flatMap fun w => virtualNodes blake3 w.url := by
  induction workers with
  | nil => rfl
  | cons w workers ih =>
    have hurl : ∀ e ∈ virtualNodes blake3 w.url, e.2 = w.url := by
      intro e he
      obtain ⟨_, _, rfl⟩ := mem_map.mp he
      rfl
    rw [flatMap_cons, filter_append, ih, filter_cons]
    split
    · next hw => rw [filter_eq_self.mpr fun e he => hurl e he ▸ hw, flatMap_cons]
    · next hw => rw [filter_eq_nil_iff.mpr fun e he => hurl e he ▸ hw, nil_append]

/-- Where two rings keep the same workers, they keep the same places in the same order. -/
lemma findHealthyUrl_congr {workers workers' : List Worker} {isHealthy' : String → Bool}
    (hfree : ∀ e ∈ (new blake3 workers).entries, ∀ e' ∈ (new blake3 workers).entries, e.1 = e'.1 →
    e = e')
    (hsame : (workers'.filter (isHealthy' ·.url)).Perm (workers.filter (isHealthy ·.url))) :
    (new blake3 workers').findHealthyUrl blake3 key isHealthy' =
    (new blake3 workers).findHealthyUrl blake3 key isHealthy := by
  have hperm : ((new blake3 workers').entries.filter (isHealthy' ·.2)).Perm
      ((new blake3 workers).entries.filter (isHealthy ·.2)) := by
    refine ((mergeSort_perm _ _).filter _).trans (.trans ?_ ((mergeSort_perm _ _).filter _).symm)
    rw [filter_flatMap_virtualNodes, filter_flatMap_virtualNodes]
    exact hsame.flatMap_right _
  have hentries :=
    hperm.eq_of_pairwise (fun e e' he he' hle hle' => hfree e (mem_filter.mp (hperm.subset he)).1 e'
    (mem_filter.mp he').1 (UInt64.le_antisymm hle hle')) ((new blake3 workers').sorted.filter _)
      ((new blake3 workers).sorted.filter _)
  rw [findHealthyUrl_eq, findHealthyUrl_eq, hentries]

lemma findHealthyUrl_of_ne (h : ring.findHealthyUrl blake3 key isHealthy ≠ some url) :
    ring.findHealthyUrl blake3 key
    (fun url' => isHealthy url' && url' ≠ url) = ring.findHealthyUrl blake3 key isHealthy := by
  rw [findHealthyUrl] at h
  rw [findHealthyUrl, findHealthyUrl]
  generalize filterMap _ _ = l at h ⊢
  induction l with
  | nil => rfl
  | cons url' l ih =>
    rw [find?_cons] at h
    rw [find?_cons, find?_cons]
    cases hhealthy : isHealthy url' with
    | false =>
      rw [hhealthy] at h
      exact ih h
    | true =>
      rw [hhealthy] at h
      have hne : url' ≠ url := fun heq => h (congrArg some heq)
      simp [hne]

/-- **Only the keys of one worker move.** Where places of different URLs are different, a ring
answers if there is a healthy URL, and as the ring of the healthy workers. So when one worker comes,
goes or changes its health, a key keeps its worker unless it had or gets that one. -/
theorem findHealthyUrl_consistent {workers : List Worker}
    (hfree : ∀ e ∈ (new blake3 workers).entries, ∀ e' ∈ (new blake3 workers).entries, e.1 = e'.1 →
    e.2 = e'.2)
    (key : String) (isHealthy : String → Bool) :
    (((new blake3 workers).findHealthyUrl blake3 key isHealthy).isSome ↔
    ∃ w ∈ workers, isHealthy w.url) ∧
      (new blake3 workers).findHealthyUrl blake3 key isHealthy =
        (new blake3 (workers.filter (isHealthy ·.url))).findHealthyUrl blake3 key (fun _ => true) ∧
      ∀ (workers' : List Worker) (isHealthy' : String → Bool) (url : String),
        (workers'.filter (·.url ≠ url)).Perm (workers.filter (·.url ≠ url)) →
        (∀ url' ≠ url, isHealthy' url' = isHealthy url') →
        (new blake3 workers').findHealthyUrl blake3 key isHealthy' =
        (new blake3 workers).findHealthyUrl blake3 key isHealthy ∨
          (new blake3 workers').findHealthyUrl blake3 key isHealthy' = some url ∨
          (new blake3 workers).findHealthyUrl blake3 key isHealthy = some url := by
  have hfree : ∀ e ∈ (new blake3 workers).entries, ∀ e' ∈ (new blake3 workers).entries, e.1 = e'.1 →
      e = e' :=
    fun e he e' he' heq => Prod.ext heq (hfree e he e' he' heq)
  refine ⟨⟨fun h => ?_, fun ⟨w, hw, hhealthy⟩ => ?_⟩, ?_,
    fun workers' isHealthy' url hperm hsame => ?_⟩
  · obtain ⟨url, hurl⟩ := Option.isSome_iff_exists.mp h
    obtain ⟨w, hw, rfl⟩ := (mem_urls_new blake3).mp (mem_walk.mp (mem_of_find?_eq_some hurl))
    exact ⟨w, hw, find?_some hurl⟩
  · exact find?_isSome.mpr ⟨_, mem_walk.mpr ((mem_urls_new blake3).mpr ⟨w, hw, rfl⟩), hhealthy⟩
  · refine (findHealthyUrl_congr blake3 hfree ?_).symm
    rw [filter_true]
  · by_contra hno
    obtain ⟨hne, hno⟩ := not_or.mp hno
    obtain ⟨h', h⟩ := not_or.mp hno
    rw [← findHealthyUrl_of_ne blake3 h', ← findHealthyUrl_of_ne blake3 h] at hne
    refine hne (findHealthyUrl_congr blake3 hfree ?_)
    have hhealth : workers'.filter (fun w => isHealthy' w.url && w.url ≠ url) =
        (workers'.filter (·.url ≠ url)).filter (isHealthy ·.url) := by
      rw [filter_filter]
      refine filter_congr fun w _ => ?_
      by_cases hurl : w.url = url
      · simp [hurl]
      · rw [hsame w.url hurl]
    rw [hhealth, ← filter_filter]
    exact hperm.filter _

/-- Of two workers with places of their own, one fails. -/
theorem findHealthyUrl_consistent_two_workers :
    ∃ (blake3 : List UInt8 → UInt64) (workers : List Worker),
    (∀ url ∈ ["a", "b"], url ∈ (new blake3 workers).urls) ∧
    (new blake3 workers).findHealthyUrl blake3 "key" (· ≠ "a") =
      (new blake3 (workers.filter (·.url ≠ "a"))).findHealthyUrl blake3 "key" (fun _ => true) := by
  let worker (url : String) : Worker := ⟨0, url, "", .regular, .http⟩
  have ha : "a".toUTF8.toList = [97] := by decide +kernel
  have hb : "b".toUTF8.toList = [98] := by decide +kernel
  refine ⟨fun bytes => if bytes.head? = some 97 then 0 else 1, [worker "a", worker "b"],
    fun url hurl => ?_,
    (findHealthyUrl_consistent _ (fun e he e' he' heq => ?_) "key" _).2.1⟩
  · exact (mem_urls_new _).mpr ⟨worker url, by simpa [worker] using hurl, rfl⟩
  · have hplace :
      ∀ e ∈ (new (fun bytes => if bytes.head? = some 97 then 0 else 1) [worker "a",
      worker "b"]).entries,
        e = (0, "a") ∨ e = (1, "b") := by
      intro e he
      obtain ⟨w, hw, he⟩ := mem_flatMap.mp (mem_mergeSort.mp he)
      obtain ⟨vnode, _, rfl⟩ := mem_map.mp he
      rcases mem_pair.mp hw with rfl | rfl
      · exact .inl (by simp only [worker, ha]; rfl)
      · exact .inr (by simp only [worker, hb]; rfl)
    rcases hplace e he with rfl | rfl <;> rcases hplace e' he' with rfl | rfl
    · rfl
    · cases heq
    · cases heq
    · rfl

end

end HashRing

end Sglang.Gateway
