import Sglang.Managers.KvPool

/-! What the request functions do to the pool.

`Placed` is what a live request keeps to: its `last_node` stands for the first
`cache_protected_len` units of its tokens and for the same slots of its row, and the
row runs through pages. What lies behind the protected part is the request's own. -/
namespace Sglang.Managers

open Option hiding guard
open List
open MemCache Prefix Pages RadixCache RadixKey Req KvAllocator CacheInitParams

/-! ### Keys of requests -/

section
variable (isEagle : Bool)

/-- The units of some tokens, plain or in pairs. -/
def units (ts : List TokenId) : List KeyUnit := RadixKey.iter {tokenIds := ts, isBigram := isEagle}

/-- How many units `n` tokens have. -/
def unitsLen (n : Nat) : Nat := if isEagle then n - 1 else n

lemma length_units (ts : List TokenId) :
    (units isEagle ts).length = unitsLen isEagle ts.length := by
  rw [units, length_iter]
  rfl

lemma unitsLen_le (n : Nat) : unitsLen isEagle n ≤ n := by
  unfold unitsLen
  split <;> omega

lemma units_take (ts : List TokenId) (n : Nat) :
    units isEagle (ts.take n) = (units isEagle ts).take (unitsLen isEagle n) := by
  cases isEagle with
  | false => simp [units, RadixKey.iter, unitsLen]
  | true =>
    cases n with
    | zero => simp [units, RadixKey.iter, unitsLen]
    | succ n =>
      have := zipWith_stretch KeyUnit.bigram ts 0 n
      rwa [drop_zero, drop_zero] at this

end

lemma units_of_prefix {isEagle : Bool} {ts us : List TokenId} (h : ts <+: us) :
    units isEagle ts = (units isEagle us).take (unitsLen isEagle ts.length) := by
  conv_lhs => rw [prefix_iff_eq_take.mp h, units_take]

section Key
variable (c : RadixCache) (ts : List TokenId) (extraKey : Option String)

/-- How many units of `n` tokens are filed. -/
def alignedLen (c : RadixCache) (n : Nat) : Nat := floor c.pageSize (unitsLen c.isEagle n)

lemma alignedLen_le (n : Nat) : alignedLen c n ≤ n := (floor_le _ _).trans (unitsLen_le _ _)

lemma radixKey_ns : (radixKey c ts extraKey).ns = (extraKey, c.isEagle) := ns_pageAligned _ _

lemma radixKey_len : (radixKey c ts extraKey).len = alignedLen c ts.length := len_pageAligned _ _

lemma radixKey_iter : (radixKey c ts extraKey).iter = (units c.isEagle ts).take
    (alignedLen c ts.length) :=
  iter_pageAligned _ _

lemma radixKey_iter_of_prefix {us : List TokenId} (h : ts <+: us) :
    (radixKey c ts extraKey).iter = (units c.isEagle us).take (alignedLen c ts.length) := by
  have hle : alignedLen c ts.length ≤ unitsLen c.isEagle ts.length := floor_le _ _
  rw [radixKey_iter, units_of_prefix h, take_take, min_eq_left hle]

lemma radixKey_view : (radixKey c ts extraKey).view c.isEagle = radixKey c ts extraKey := by
  have hview : (radixKey c ts extraKey).isBigram = c.isEagle :=
    congrArg Prod.snd (radixKey_ns c ts extraKey)
  unfold view maybeToBigramView
  rw [hview, if_neg (by simp)]

lemma floor_radixKey : floor c.pageSize (radixKey c ts extraKey).len = alignedLen c ts.length := by
  rw [radixKey_len]
  exact Nat.div_mul_cancel (dvd_floor _ _)

variable {c} in
lemma radixKey_of_params {c' : RadixCache} (h : c'.toCacheInitParams = c.toCacheInitParams) :
    radixKey c' ts extraKey = radixKey c ts extraKey ∧ alignedLen c' = alignedLen c := by
  unfold radixKey alignedLen
  rw [h]
  exact ⟨rfl, rfl⟩

end Key

/-! ### Live requests -/

structure Placed (c : RadixCache) (g : Shape) (r : Req) : Prop where
  mem : r.lastNode ∈ g.live
  path : g.path r.lastNode = (units c.isEagle r.tokens).take r.cacheProtectedLen
  length : (g.path r.lastNode).length = r.cacheProtectedLen
  vals : g.vals r.lastNode = r.slots.take r.cacheProtectedLen
  ns : r.lastNode = c.tree.root ∨ (c.tree.node r.lastNode).key.ns = (r.extraKey, c.isEagle)
  paged : Paged c.pageSize r.slots
  before : r.prefixIndices <+: r.slots
  fresh : r.row = none → r.prefixIndices.length = r.cacheProtectedLen
  row : ∀ row, r.row = some row → row.length = r.kvCommittedLen ∧
    r.kvAllocatedLen = r.kvCommittedLen ∧
    r.fillIds <+: r.tokens ∧ r.fillIds.length ≤ row.length ∧
    r.cacheProtectedLen ≤ unitsLen c.isEagle r.fillIds.length

/-- The pages of the part of the row that is the request's own. -/
def Req.ownPages (page : Nat) (r : Req) : Multiset Nat :=
  pageSet page (r.slots.drop r.cacheProtectedLen)

variable {size : Nat} {c c' : RadixCache} {a a' : KvAllocator} {g g' : Shape}
  {r : Req} {locks : List NodeId}
  {owned : Multiset Nat}

namespace Placed

lemma keeps (hr : Placed c g r) (hk : c.Keeps g c' g') (hmem : r.lastNode ∈ g'.live) :
    Placed c' g' r := by
  obtain ⟨hpath, hvals, hns⟩ := hk.label r.lastNode hr.mem hmem
  have hpage := pageSize_of_params hk.params
  have heagle : c'.isEagle = c.isEagle := congrArg isEagle hk.params
  refine ⟨hmem, ?_, ?_, ?_, ?_, ?_, hr.before, hr.fresh, ?_⟩
  · rw [hpath, heagle]
    exact hr.path
  · rw [hpath]
    exact hr.length
  · rw [hvals]
    exact hr.vals
  · rw [hk.root, hns, heagle]
    exact hr.ns
  · rw [hpage]
    exact hr.paged
  · rw [heagle]
    exact hr.row

section
variable (hr : Placed c g r) (h : WellFormed c.tree g)
include hr h

lemma dvd : c.pageSize ∣ r.cacheProtectedLen := by
  rw [← hr.length]
  exact h.page_dvd_path hr.mem

lemma le_slots : r.cacheProtectedLen ≤ r.slots.length := by
  have hlen := h.length_vals hr.mem
  rw [hr.vals, hr.length, length_take] at hlen
  omega

/-- Whatever node stands for more of the request's tokens has the protected slots too. -/
lemma agree {n : NodeId} (hn : n ∈ g.live)
    (hns : n = c.tree.root ∨ (c.tree.node n).key.ns = (r.extraKey, c.isEagle))
    (hpre : g.path r.lastNode <+: g.path n) :
    (g.vals n).take r.cacheProtectedLen = r.slots.take r.cacheProtectedLen := by
  rcases Nat.eq_zero_or_pos r.cacheProtectedLen with hz | hpos
  · rw [hz]
    rfl
  have hlen := hr.length
  have hroot := (holds_path h hr.mem (by omega)).1
  have hroot' := (holds_path h hn (by have := hpre.length_le; omega)).1
  have hagree :=
    h.vals_agree hn hr.mem ((hns.resolve_left hroot').trans (hr.ns.resolve_left hroot).symm) hpre
    prefix_rfl ⟨length_pos_iff.mp (by omega), h.page_dvd_path hr.mem⟩
  rw [hlen] at hagree
  rw [hagree, hr.vals, take_take, Nat.min_self]

end

end Placed

/-! ### Handing a prefix to the tree -/

section Insert
variable {row : List Slot} {ts : List TokenId} {args : ServerArgs}

lemma Placed.rematched {m : MatchResult} (hr : Placed c g r) (h : WellFormed c.tree g)
    (hvals : c.ValsPaged g) (hrow : r.row = some row)
    (hfound : Found c g (radixKey c r.fillIds r.extraKey) m)
    (hall : m.deviceIndices.length = alignedLen c r.fillIds.length) :
    (r.rematched m row).slots = m.deviceIndices ++ row.drop m.deviceIndices.length ∧
    Placed c g (r.rematched m row) := by
  obtain ⟨hlen, halloc, hfill, hle, hprot⟩ := hr.row row hrow
  have hslots := slots_of_row hrow
  have hkey := alignedLen_le c r.fillIds.length
  have hdvd : c.pageSize ∣ m.deviceIndices.length := hall ▸ dvd_floor _ _
  have hprot' : r.cacheProtectedLen ≤ m.deviceIndices.length := hall ▸ le_floor (hr.dvd h) hprot
  have hiter := radixKey_iter_of_prefix c r.fillIds r.extraKey hfill
  have hpath :
      g.path m.lastDeviceNode = (units c.isEagle r.tokens).take m.deviceIndices.length := by
    rw [hfound.path, hiter, take_take, ← hall, Nat.min_self]
  have hlast : (g.path m.lastDeviceNode).length = m.deviceIndices.length := by
    rw [← h.length_vals hfound.mem, hfound.vals]
  have hagree : row.take r.cacheProtectedLen = m.deviceIndices.take r.cacheProtectedLen := by
    rw [← hslots, ← hr.agree h hfound.mem (by rw [← radixKey_ns c r.fillIds]; exact hfound.ns),
      hfound.vals]
    rw [hr.path, hpath]
    exact take_prefix_take_left hprot'
  have hnew : (r.rematched m row).slots = m.deviceIndices ++ row.drop m.deviceIndices.length := by
    show writeSlice row r.cacheProtectedLen m.deviceIndices.length
      (m.deviceIndices.drop r.cacheProtectedLen) = _
    rw [writeSlice, if_pos hprot', hagree, take_append_drop]
  refine ⟨hnew, hfound.mem, hpath, hlast, ?_, ?_, ?_, ?_, nofun, ?_⟩
  · rw [hnew]
    exact hfound.vals.trans take_left.symm
  · rw [← radixKey_ns c r.fillIds]
    exact hfound.ns
  · rw [hnew]
    have hpaged := hvals m.lastDeviceNode hfound.mem
    rw [hfound.vals] at hpaged
    exact hpaged.append c.pageSize_pos hdvd ((hslots ▸ hr.paged).drop c.pageSize_pos hdvd)
  · rw [hnew]
    refine (prefix_append_right_inj _).mpr ?_
    rw [drop_take]
    exact take_prefix _ _
  · intro row' hrow'
    have heq : row' = m.deviceIndices ++ row.drop m.deviceIndices.length := by
      rw [← hnew, slots, hrow']
      rfl
    have hlen' : row'.length = row.length := by
      rw [heq, length_append, length_drop]
      omega
    refine ⟨hlen'.trans hlen, halloc, hfill, hle.trans hlen'.ge, ?_⟩
    show m.deviceIndices.length ≤ _
    rw [hall]
    exact floor_le _ _

/-- The length a request is released with lies between its input and its row. -/
lemma Placed.commitLen (hr : Placed c g r) (hrow : r.row = some row) (hfin : r.CanFinish args) :
    r.fillIds.length ≤ r.cacheCommitLen args ∧ r.cacheCommitLen args ≤ row.length ∧
    r.cacheCommitLen args ≤ r.tokens.length ∧
      (args.stripThinkingCache = false → r.cacheCommitLen args = r.kvAllocatedLen) := by
  obtain ⟨hlen, halloc, _, hle, _⟩ := hr.row row hrow
  obtain ⟨hcommit, hstrip⟩ := hfin
  unfold cacheCommitLen
  split
  · next h =>
    obtain ⟨hs, hpos⟩ : args.stripThinkingCache = true ∧ 0 < r.reasoningTokens := by simpa using h
    have := hstrip hs hpos
    refine ⟨by omega, by omega, by omega, fun hno => ?_⟩
    rw [hs] at hno
    cases hno
  · exact ⟨by omega, by omega, hcommit, fun _ => halloc.symm⟩

variable (h : Pool size c a g (r.lastNode :: locks) (r.ownPages c.pageSize + owned))
  (hr : Placed c g r)
  (hrow : r.row = some row)
include h hr hrow

/-- **The slots of a prefix that the tree is missing become the tree's**; those it has already stay
with the request, as do those behind the key. -/
theorem insertSlots_spec (hon : c.disable = false) (hts : ts <+: r.tokens)
    (hle : ts.length ≤ row.length) (hprot : r.cacheProtectedLen ≤ unitsLen c.isEagle ts.length)
    (now : Int) (chunked : Bool) :
    ∃ c' g' len, insertSlots now chunked r c (radixKey c ts r.extraKey)
    (row.take ts.length) = some (c', len) ∧
      r.cacheProtectedLen ≤ len ∧ len ≤ alignedLen c ts.length ∧ c.pageSize ∣ len ∧
      c.Keeps g c' g' ∧
      g.live ⊆ g'.live ∧
      Pool size c' a g' (r.lastNode :: locks)
      (pageSet c.pageSize (row.drop (alignedLen c ts.length)) + owned +
        pageSet c.pageSize ((row.take len).drop r.cacheProtectedLen)) ∧
      ∃ n ∈ g'.live, g'.path n = (radixKey c ts r.extraKey).iter ∧
        (n = c'.tree.root ∨ (c'.tree.node n).key.ns = (radixKey c ts r.extraKey).ns) := by
  have hslots := slots_of_row hrow
  have hpaged : Paged c.pageSize row := hslots ▸ hr.paged
  have hlen := radixKey_len c ts r.extraKey
  have hkey := alignedLen_le c ts.length
  set filed := alignedLen c ts.length
  have hvalues : (row.take ts.length).take (radixKey c ts r.extraKey).len = row.take filed := by
    rw [hlen, take_take, min_eq_left hkey]
  have hcovers : (radixKey c ts r.extraKey).len ≤ (row.take filed).length := by
    rw [hlen, length_take]
    omega
  have hdvd := hr.dvd h.sound.wf
  have hdvdKey : c.pageSize ∣ alignedLen c ts.length := dvd_floor _ _
  have hprot : r.cacheProtectedLen ≤ alignedLen c ts.length := le_floor hdvd hprot
  unfold insertSlots
  simp only [hvalues]
  rw [dif_pos hcovers]
  let params : InsertParams := ⟨radixKey c ts r.extraKey, some (row.take filed), chunked,
    r.priority.getD 0, fun _ hv => some.inj hv ▸ hcovers⟩
  have hvals : params.slots = row.take filed := rfl
  have hview : params.key.view c.isEagle = radixKey c ts r.extraKey := radixKey_view c ts r.extraKey
  obtain ⟨c', g', len, heq, hi, hdvdLen, hpool⟩ :=
    h.insert hon now params (hpaged.take c.pageSize_pos _)
  rw [hview] at hi hpool
  have hle' := hi.le
  rw [floor_radixKey] at hle'
  have hlow : r.cacheProtectedLen ≤ len := by
    rcases Nat.eq_zero_or_pos r.cacheProtectedLen with hz | hpos
    · omega
    · obtain ⟨hroot, page, hholds⟩ := holds_path h.sound.wf hr.mem (by rw [hr.length]; exact hpos)
      rw [hr.ns.resolve_left hroot, ← radixKey_ns c ts] at hholds
      have hpre : g.path r.lastNode <+: (radixKey c ts r.extraKey).iter := by
        rw [hr.path, radixKey_iter_of_prefix c ts r.extraKey hts]
        exact take_prefix_take_left hprot
      exact hr.length ▸ hi.longest _ page hholds hpre
  obtain ⟨hkeeps, hsub⟩ := hi.keeps h.sound.wf
  refine ⟨c', g', len, heq, hlow, hle', hdvdLen, hkeeps, hsub, hpool _ ?_, ?_⟩
  · -- the row behind the protected part, cut at what was there and at the end of the key
    have hcut1 := hpaged.pageSet_cut c.pageSize_pos hdvd hdvdLen hlow
    have hcut2 := hpaged.pageSet_cut c.pageSize_pos hdvdLen hdvdKey hle'
    rw [ownPages, hslots, hcut1, hcut2, hvals, floor_radixKey, take_take, Nat.min_self]
    abel
  · obtain ⟨n, hn, hpath, hns⟩ := hi.whole h.sound.wf
    refine ⟨n, hn, ?_, hns⟩
    rw [hpath, floor_radixKey, take_of_length_le]
    rw [length_iter, hlen]

/-- **Caching a running request keeps the pool**, moves the protected part to the end of the key,
and never trips over the assertion. -/
theorem cacheUnfinishedReq_spec (now : Int) (chunked : Bool) :
    ∃ c' a' r' g', cacheUnfinishedReq now chunked c a r = some (c', a', r') ∧
      Pool size c' a' g' (r'.lastNode :: locks) (r'.ownPages c.pageSize + owned) ∧ Placed c' g' r' ∧
      c.Keeps g c' g' := by
  by_cases hdis : c.disable = true
  · refine ⟨c, a, r, g, ?_, h, hr, .refl c g⟩
    rw [cacheUnfinishedReq, if_pos hdis]
  have hon : c.disable = false := by simpa using hdis
  obtain ⟨hlen, halloc, hfill, hle, hprot⟩ := hr.row row hrow
  obtain ⟨c1, g1, len, heq1, hlow, hhigh, hdvd, hk1, hsub1, hpool1, n, hn, hnpath, hnns⟩ :=
    insertSlots_spec h hr hrow hon hfill hle hprot now chunked
  have hslots := slots_of_row hrow
  have hpaged : Paged c.pageSize row := hslots ▸ hr.paged
  have hpage1 := pageSize_of_params hk1.params
  have heagle1 : c1.isEagle = c.isEagle := congrArg isEagle hk1.params
  have hkey := alignedLen_le c r.fillIds.length
  have hfreed := (hpaged.take c.pageSize_pos len).drop c.pageSize_pos (hr.dvd h.sound.wf)
  have hpool1 := Pool.free (hpage1 ▸ hfreed) (hpage1 ▸ hpool1)
  obtain ⟨c2, m, g2, heq2, hpool2, hk2, hsub2, hfound⟩ :=
    hpool1.lookup now (radixKey c r.fillIds r.extraKey)
  rw [heagle1, radixKey_view] at hfound
  obtain ⟨c3, d3, heq3, hpool3, hk3⟩ := hpool2.unlock
  obtain ⟨c4, d4, heq4, hpool4, hk4⟩ := hpool3.lock hfound.mem
  have hn2 := hsub2 hn
  obtain ⟨hpath2, _, hns2⟩ := hk2.label n hn hn2
  have hall : m.deviceIndices.length = alignedLen c r.fillIds.length := by
    have hlow := hfound.longest n hn2 (by rw [hpath2, hnpath]) (by rw [hk2.root, hns2]; exact hnns)
    have hhigh := hfound.le
    rw [hpath2, hnpath, length_iter, radixKey_len] at hlow
    rw [radixKey_len] at hhigh
    omega
  have hk' := hk1.trans hk2 fun n hn _ => hsub1 hn
  have hk := (hk'.trans hk3 fun _ _ hn => hn).trans hk4 fun _ _ hn => hn
  obtain ⟨hsame, hsame'⟩ := radixKey_of_params r.fillIds r.extraKey hk'.params
  obtain ⟨hnew, hplaced⟩ :=
    (hr.keeps hk' (hsub2 (hsub1 hr.mem))).rematched hpool2.sound.wf hpool2.vals hrow
    (hsame ▸ hfound) (hsame' ▸ hall)
  refine ⟨c4, a.free ((row.take len).drop r.cacheProtectedLen), r.rematched m row,
    g2, ?_, ?_, ?_, hk⟩
  · rw [cacheUnfinishedReq, if_neg hdis]
    have htake : (row.take r.fillIds.length).take len = row.take len := by
      rw [take_take, min_eq_left (hhigh.trans hkey)]
    simp [hrow, heq1, heq2, heq3, heq4, hall, radixKey_len, guard, htake]
  · rw [ownPages, hnew, show (r.rematched m row).cacheProtectedLen = m.deviceIndices.length from
      rfl, drop_left, hall, ← hpage1]
    exact hpool4
  · exact hplaced.keeps (hk3.trans hk4 fun _ _ hn => hn) hfound.mem

/-! ### Releasing a request -/

variable (hfin : r.CanFinish args) (now : Int) (isInsert : Bool)
include hfin

/-- **A finished request leaves its prefix to the tree, gives back what the tree had already and the
tail, and drops its lock.** What was allocated beyond the committed length is left. -/
theorem cacheFinishedReq_spec :
    ∃ c' a' g', cacheFinishedReq now args isInsert c a r row = some (c', a') ∧
      Pool size c' a' g' locks
      (owned + pageSet c.pageSize (row.drop (ceil c.pageSize (r.cacheCommitLen args)))) ∧
      c.Keeps g c' g' := by
  obtain ⟨hfill, hle, htokens, _⟩ := hr.commitLen hrow hfin
  obtain ⟨_, _, _, _, hprot⟩ := hr.row row hrow
  have hslots := slots_of_row hrow
  have hpaged : Paged c.pageSize row := hslots ▸ hr.paged
  generalize hn : r.cacheCommitLen args = n at *
  unfold cacheFinishedReq
  simp only [hn]
  by_cases hdis : c.disable = true
  · rw [if_pos hdis]
    have hzero : r.cacheProtectedLen = 0 := by
      have hroot := hr.mem
      rw [h.sound.off hdis] at hroot
      rw [← hr.length, Finset.mem_singleton.mp hroot, h.sound.wf.root_path]
      rfl
    have hown : r.ownPages c.pageSize + owned = owned + pageSet c.pageSize
      (row.drop (ceil c.pageSize n)) +
        pageSet c.pageSize (row.take n) := by
      rw [ownPages, hzero, hslots, drop_zero, ← hpaged.pageSet_ceil c.pageSize_pos hle]
      abel
    have hfree := Pool.free (hpaged.take c.pageSize_pos n) (hown ▸ h)
    obtain ⟨c', d, heq, hpool, hk⟩ := hfree.unlock
    obtain ⟨rfl, _⟩ : c = c' ∧ 0 = d := by simpa [decLockRef, hdis] using heq
    exact ⟨c, _, g, rfl, hpool, hk⟩
  have hon : c.disable = false := by simpa using hdis
  rw [if_neg hdis]
  have hlen : (r.tokens.take n).length = n := by rw [length_take, min_eq_left htokens]
  have hprot : r.cacheProtectedLen ≤ unitsLen c.isEagle n :=
    hprot.trans (by unfold unitsLen; split <;> omega)
  have hkey := alignedLen_le c n
  have hdvd := hr.dvd h.sound.wf
  have hdvdKey : c.pageSize ∣ alignedLen c n := dvd_floor _ _
  have hprotKey : r.cacheProtectedLen ≤ alignedLen c n := le_floor hdvd hprot
  -- with or without insertion, what is left are the slots behind the key
  have hfirst : ∃ c1 g1 len,
      insertFinished now isInsert r c (radixKey c (r.tokens.take n) r.extraKey)
      (row.take n) = some (c1, len) ∧
      Pool size c1 (a.free (((row.take n).take len).drop r.cacheProtectedLen)) g1
      (r.lastNode :: locks)
        (pageSet c.pageSize (row.drop (alignedLen c n)) + owned) ∧ c.Keeps g c1 g1 := by
    unfold insertFinished
    split
    · obtain ⟨c1, g1, len, heq, _, hhigh, _, hk, _, hpool, _⟩ := insertSlots_spec h hr hrow hon
        ( take_prefix n r.tokens) (by rw [hlen]; exact hle) (by rw [hlen]; exact hprot) now false
      rw [hlen] at heq hhigh hpool
      have hpage := pageSize_of_params hk.params
      have hfreed := (hpaged.take c.pageSize_pos len).drop c.pageSize_pos hdvd
      refine ⟨c1, g1, len, heq, ?_, hk⟩
      rw [take_take, min_eq_left (hhigh.trans hkey)]
      exact hpage ▸ Pool.free (hpage ▸ hfreed) (hpage ▸ hpool)
    · refine ⟨c, g, _, rfl, ?_, .refl c g⟩
      rw [radixKey_len, hlen, take_take, min_eq_left hkey]
      refine Pool.free ((hpaged.take c.pageSize_pos _).drop c.pageSize_pos hdvd) ?_
      rw [ownPages, hslots, hpaged.pageSet_cut c.pageSize_pos hdvd hdvdKey hprotKey] at h
      convert h using 1
      abel
  obtain ⟨c1, g1, len, heq1, hpool1, hk1⟩ := hfirst
  have hpage := pageSize_of_params hk1.params
  have htail := (hpaged.take c.pageSize_pos n).drop c.pageSize_pos hdvdKey
  have hpool2 : Pool size c1 ((a.free (((row.take n).take len).drop r.cacheProtectedLen)).free
      ((row.take n).drop (alignedLen c n))) g1 (r.lastNode :: locks)
      (owned + pageSet c.pageSize (row.drop (ceil c.pageSize n))) := by
    refine Pool.free (hpage ▸ htail) ?_
    rw [hpaged.pageSet_ceil_cut c.pageSize_pos hdvdKey hkey hle] at hpool1
    convert hpool1 using 1
    rw [hpage]
    abel
  obtain ⟨c2, d, heq2, hpool3, hk2⟩ := hpool2.unlock
  refine ⟨c2, _, g1, ?_, hpool3, hk1.trans hk2 fun _ _ hn => hn⟩
  simp [hlen, heq1, radixKey_len, heq2]

/-- **Releasing a request gives back all its own pages, once.** -/
theorem releaseKvCache_spec :
    ∃ c' a' g', releaseKvCache now args isInsert c a r = some (c', a') ∧
    Pool size c' a' g' locks owned ∧ c.Keeps g c' g' := by
  obtain ⟨c', a', g', heq, hpool, hk⟩ := cacheFinishedReq_spec h hr hrow hfin now isInsert
  obtain ⟨_, hle, _, hplain⟩ := hr.commitLen hrow hfin
  obtain ⟨hlen, halloc, _⟩ := hr.row row hrow
  have hpage := pageSize_of_params hk.params
  have hslots := slots_of_row hrow
  have hguard : args.speculative || args.stripThinkingCache ||
      decide (r.cacheCommitLen args = r.kvAllocatedLen) := by
    cases hs : args.stripThinkingCache with
    | true => simp
    | false => simp [hplain hs]
  have hstart :
    (if c'.pageSize > 1 then ceil c'.pageSize (r.cacheCommitLen args) else r.cacheCommitLen args) =
      ceil c.pageSize (r.cacheCommitLen args) := by
    rw [hpage]
    split
    · rfl
    · rw [show c.pageSize = 1 by have := c.pageSize_pos; omega, ceil_one]
  have hrest := (hslots ▸ hr.paged : Paged c.pageSize row).drop c.pageSize_pos
    (dvd_mul_left c.pageSize (count c.pageSize (r.cacheCommitLen args)))
  have hend : (if ceil c.pageSize (r.cacheCommitLen args) < r.kvAllocatedLen then
        a'.free ((row.take r.kvAllocatedLen).drop (ceil c.pageSize (r.cacheCommitLen args)))
          else a') =
      a'.free (row.drop (ceil c.pageSize (r.cacheCommitLen args))) := by
    rw [take_of_length_le (by omega)]
    split
    · rfl
    · rw [drop_eq_nil_of_le (by omega)]
      rfl
  refine ⟨c', a'.free (row.drop (ceil c.pageSize (r.cacheCommitLen args))),
    g', ?_, Pool.free (hpage ▸ hrest) (hpage ▸ hpool), hk⟩
  simp [releaseKvCache, hrow, heq, guard, hguard, hstart, hend]

end Insert

/-! ### Admission -/

lemma view_plain (isEagle : Bool) (tokenIds : List TokenId) (extraKey : Option String) :
    (view {tokenIds, extraKey} isEagle).iter = units isEagle tokenIds ∧
      (view {tokenIds, extraKey} isEagle).ns = (extraKey, isEagle) := by
  cases isEagle <;> exact ⟨rfl, rfl⟩

/-- **An admitted request shares the tree's slots and owns none.** -/
theorem addOneReq_spec (h : Pool size c a g locks owned) (hrow : r.row = none) (now : Int) :
    ∃ c1 r' c2 d g', r.initNextRoundInput now c = some (c1, r') ∧
    c1.incLockRef r'.lastNode = some (c2, d) ∧
      Pool size c2 a g' (r'.lastNode :: locks) (r'.ownPages c.pageSize + owned) ∧
      Placed c2 g' r' ∧ c.Keeps g c2 g' := by
  unfold initNextRoundInput
  simp only
  generalize hts :
    (if r.positionalEmbedOverrides.isSome = true then [] else r.tokens.take r.maxPrefixLen) = ts
  have hpre : ts <+: r.tokens := by
    rw [← hts]
    split
    · exact nil_prefix
    · exact take_prefix _ _
  obtain ⟨c1, m, g', heq, hpool, hk, hsub, hfound⟩ :=
    h.lookup now {tokenIds := ts, extraKey := r.extraKey}
  obtain ⟨hiter, hns⟩ := view_plain c.isEagle ts r.extraKey
  have hle := hfound.le
  rw [← length_iter, hiter, length_units] at hle
  obtain ⟨c2, d, heq2, hpool2, hk2⟩ := hpool.lock hfound.mem
  have heagle : c1.isEagle = c.isEagle := congrArg isEagle hk.params
  rw [heq]
  refine ⟨c1, _, c2, d, g', rfl, heq2, ?_,
    Placed.keeps (c := c1) (g := g') ⟨hfound.mem, ?_, ?_, ?_, ?_, ?_, ?_, ?_, ?_⟩
    hk2 hfound.mem, hk.trans hk2 fun _ _ hn => hn⟩
  · have hown : pageSet c.pageSize (((r.row.getD m.deviceIndices)).drop m.deviceIndices.length) =
        0 := by
      rw [hrow, getD_none, drop_length, pageSet_nil c.pageSize_pos]
    rw [ownPages, slots, hown, zero_add]
    exact hpool2
  · rw [heagle, hfound.path, hiter, units_of_prefix hpre, take_take, min_eq_left hle]
    rfl
  · rw [← hpool.sound.wf.length_vals hfound.mem, hfound.vals]
  · rw [hfound.vals, slots, hrow]
    exact take_length.symm
  · rw [heagle, ← hns]
    exact hfound.ns
  · have hpaged := hpool.vals m.lastDeviceNode hfound.mem
    rw [hfound.vals] at hpaged
    rw [slots, hrow]
    exact hpaged
  · rw [slots, hrow]
    exact prefix_rfl
  · exact fun _ => rfl
  · intro row hsome
    rw [hrow] at hsome
    cases hsome

/-! ### Allocation -/

variable {batch : List Req}

/-- What a batch gets is owned by its requests, behind what they share. -/
lemma ownPages_handed {slots : Req → List Slot} {seqLen : Req → Nat} {outs : List (List Slot)}
    (hh : a.Handed a' slots seqLen batch outs) (hp : 0 < a.pageSize)
    (hreq : ∀ r ∈ batch, Paged a.pageSize (slots r) ∧ a.pageSize ∣ r.cacheProtectedLen ∧
    r.cacheProtectedLen ≤ (slots r).length) :
    ∃ ps, a.Took a' ps ∧
      ((batch.zip outs).map fun p => pageSet a.pageSize
      ((slots p.1 ++ p.2).drop p.1.cacheProtectedLen)).sum =
        (batch.map fun r => pageSet a.pageSize ((slots r).drop r.cacheProtectedLen)).sum + ps := by
  obtain ⟨ps, htook, hsum⟩ := hh.took
  refine ⟨ps, htook, ?_⟩
  have hfst : (batch.zip outs).map Prod.fst = batch := map_fst_zip hh.length.ge
  -- the shared part is the same before and after, so it cancels
  have hold : (batch.map fun r => pageSet a.pageSize (slots r)).sum =
      (batch.map fun r => pageSet a.pageSize ((slots r).take r.cacheProtectedLen)).sum +
        (batch.map fun r => pageSet a.pageSize ((slots r).drop r.cacheProtectedLen)).sum := by
    rw [← sum_map_add]
    refine congrArg List.sum (map_congr_left fun r hr => ?_)
    obtain ⟨hpaged, hdvd, _⟩ := hreq r hr
    exact (hpaged.pageSet_split hp hdvd).symm
  have hnew : ((batch.zip outs).map fun p => pageSet a.pageSize (slots p.1 ++ p.2)).sum =
      (batch.map fun r => pageSet a.pageSize ((slots r).take r.cacheProtectedLen)).sum +
        ((batch.zip outs).map fun p => pageSet a.pageSize
        ((slots p.1 ++ p.2).drop p.1.cacheProtectedLen)).sum := by
    have hshared : (batch.map fun r => pageSet a.pageSize ((slots r).take r.cacheProtectedLen)) =
        (batch.zip outs).map fun p =>
        pageSet a.pageSize ((slots p.1).take p.1.cacheProtectedLen) := by
      conv_lhs => rw [← hfst, List.map_map]
      rfl
    rw [hshared, ← sum_map_add]
    refine congrArg List.sum (map_congr_left fun p hm => ?_)
    obtain ⟨_, hdvd, hle⟩ := hreq p.1 (of_mem_zip hm).1
    rw [← (hh.paged p hm).pageSet_split hp hdvd, take_append_of_le_length hle]
  rw [hnew, hold, add_assoc] at hsum
  exact add_left_cancel hsum

lemma continues_lastLoc {page n : Nat} {l : List Slot} (hl : Paged page l) (hle : l.length ≤ n) :
    KvAllocator.Continues page ⟨l.length, n, lastLoc l⟩ l := by
  refine ⟨hl, rfl, hle, fun s hs => ?_⟩
  rw [lastLoc, mem_def.mp hs]
  rfl

/-- Room is made in the tree, then slots are handed out. -/
lemma evict_alloc {α β : Type} {outs : β} {numTokens : Nat} (h : Pool size c a g locks owned)
    (alloc : KvAllocator → Option (KvAllocator × α)) (f : α → β)
    (heq : (do
      let (c, a) ← evictFromTreeCache c a numTokens
      let (a, out) ← alloc a
      some (c, a, f out)) = some (c', a', outs)) :
    ∃ a1 g' out, alloc a1 = some (a', out) ∧ f out = outs ∧ Pool size c' a1 g' locks owned ∧
    c.Keeps g c' g' ∧
      a1.pageSize = c.pageSize := by
  obtain ⟨c1, a1, g', heq1, hpool, hk⟩ := h.evictFromTreeCache numTokens
  simp only [heq1, bind_eq_bind, bind_some] at heq
  obtain ⟨⟨a2, out⟩, halloc, heq⟩ := bind_eq_some_iff.mp heq
  cases heq
  exact ⟨a1, g', out, halloc, rfl, hpool, hk, by rw [hpool.page, pageSize_of_params hk.params]⟩

/-- An extend batch: the tree may shrink, and each request gets slots up to the end of its input. -/
lemma allocForExtend_spec {outs : List (List Slot)} (h : Pool size c a g locks owned)
    (hb : ∀ r ∈ batch, Paged c.pageSize r.prefixIndices ∧ r.prefixIndices.length ≤ r.fillIds.length)
    (heq : allocForExtend c a batch = some (c', a', outs)) :
    ∃ a1 g', Pool size c' a1 g' locks owned ∧ c.Keeps g c' g' ∧
      a1.Handed a' prefixIndices (fun r => r.fillIds.length) batch outs := by
  unfold allocForExtend at heq
  split at heq
  · next hone =>
    obtain ⟨a1, g', out, halloc, rfl, hpool, hk, hpage⟩ :=
      evict_alloc h (·.alloc _) (splitLens _) heq
    have hh := @handed_splitLens _ _ Req prefixIndices _ _ (hpage.trans hone) _ halloc
    refine ⟨a1, g', hpool, hk, hh.length, hh.paged, fun p hm => ?_, hh.took⟩
    have := (hb p.1 (of_mem_zip hm).1).2
    rw [hh.seqLen p hm]
    omega
  · obtain ⟨a1, g', out, halloc, rfl, hpool, hk, hpage⟩ := evict_alloc h (·.allocExtend _ _) id heq
    refine ⟨a1, g', hpool, hk, allocExtend_spec hpool.page_pos _ (fun r hr => ?_) halloc⟩
    rw [hpage]
    exact continues_lastLoc (hb r hr).1 (hb r hr).2

variable {out : List Slot}

lemma splitLens_ones {α : Type} {xs : List α} (h : out.length = xs.length) :
    splitLens (xs.map fun _ => 1) out = out.map ([·]) := by
  induction xs generalizing out with
  | nil =>
    rw [eq_nil_of_length_eq_zero h]
    rfl
  | cons x xs ih =>
    cases out with
    | nil => cases h
    | cons s out =>
      rw [map_cons, splitLens, take_succ_cons, take_zero, drop_succ_cons,
        drop_zero, ih (Nat.succ.inj h)]
      rfl

lemma allocForDecode_spec (h : Pool size c a g locks owned)
    (hb : ∀ r ∈ batch, Paged c.pageSize r.slots ∧ r.slots.length = r.kvCommittedLen)
    (heq : allocForDecode c a batch = some (c', a', out)) :
    ∃ a1 g', Pool size c' a1 g' locks owned ∧ c.Keeps g c' g' ∧
      a1.Handed a' slots (fun r => r.slots.length + 1) batch (out.map ([·])) := by
  unfold allocForDecode at heq
  split at heq
  · next hone =>
    obtain ⟨a1, g', out, halloc, rfl, hpool, hk, hpage⟩ := evict_alloc h (·.alloc _) id heq
    have hpage := hpage.trans hone
    have hsum : (batch.map fun _ => 1).sum = batch.length := by simp
    rw [← hsum] at halloc
    have hh := @handed_splitLens _ _ Req slots _ _ hpage _ halloc
    rw [splitLens_ones (by rw [length_alloc hpage halloc, hsum])] at hh
    exact ⟨a1, g', hpool, hk, hh⟩
  · next hone =>
    obtain ⟨a1, g', out, halloc, rfl, hpool, hk, hpage⟩ := evict_alloc h (·.allocDecode _) id heq
    have hpos := c.pageSize_pos
    have hargs :
      (batch.map fun r => (r.kvCommittedLen + 1, lastLoc (r.slots.take r.kvCommittedLen))) =
        batch.map fun r => (r.slots.length + 1, lastLoc r.slots) := by
      refine map_congr_left fun r hr => ?_
      rw [← (hb r hr).2, take_length]
    rw [hargs] at halloc
    have hcont : ∀ r ∈ batch, KvAllocator.Continues a1.pageSize ⟨r.slots.length,
        r.slots.length + 1, lastLoc r.slots⟩ r.slots := by
      intro r hr
      rw [hpage]
      exact continues_lastLoc (hb r hr).1 (Nat.le_succ _)
    have hlt : 1 < a1.pageSize := by omega
    exact ⟨a1, g', hpool, hk, allocDecode_spec hlt _ hcont (fun _ _ => rfl) halloc⟩

/-- A request that can be extended goes on from its prefix. -/
lemma Placed.slots_eq {n : Nat} (hr : Placed c g r) (hcan : r.CanExtend n) :
    r.slots = r.prefixIndices := by
  rcases hcan.2.2 with hnone | hlen
  · rw [slots, hnone]
    rfl
  cases hrow : r.row with
  | none =>
    rw [slots, hrow]
    rfl
  | some row =>
    obtain ⟨hrowLen, halloc, _⟩ := hr.row row hrow
    have hslots := slots_of_row hrow
    exact (hr.before.eq_of_length (by rw [hslots, hrowLen, hlen, halloc])).symm

lemma Placed.extended {n : Nat} (hr : Placed c g r) (h : WellFormed c.tree g)
    (hcan : r.CanExtend n) (hpaged : Paged c.pageSize (r.prefixIndices ++ out))
    (hlen : (r.prefixIndices ++ out).length = n) : Placed c g ((r.truncateTo n).extended out) := by
  have hslots := hr.slots_eq hcan
  obtain ⟨hlt, hle, _⟩ := hcan
  have hprot := hr.le_slots h
  rw [hslots] at hprot
  have hfill : (r.tokens.take n).length = n := by rw [length_take, min_eq_left hle]
  refine ⟨hr.mem, hr.path, hr.length, ?_, hr.ns, hpaged, prefix_append _ _, nofun, ?_⟩
  · have hvals := hr.vals
    rw [hslots, ← take_append_of_le_length hprot] at hvals
    exact hvals
  · rintro row ⟨⟩
    refine ⟨hlen.trans hfill.symm, rfl, take_prefix _ _, hfill.le.trans hlen.ge, ?_⟩
    show r.cacheProtectedLen ≤ unitsLen c.isEagle (r.tokens.take n).length
    rw [hfill]
    unfold unitsLen
    split <;> omega

lemma Placed.decoded {row out : List Slot} (hr : Placed c g r) (h : WellFormed c.tree g)
    (hrow : r.row = some row) (hpaged : Paged c.pageSize (row ++ out)) (hone : out.length = 1) :
    (r.decoded out).slots = row ++ out ∧ Placed c g (r.decoded out) := by
  obtain ⟨hlen, halloc, hfill, hle, hunits⟩ := hr.row row hrow
  have hslots := slots_of_row hrow
  have hprot := hr.le_slots h
  rw [hslots] at hprot
  have hnew : (r.decoded out).row = some (row ++ out) := by
    show r.row.map _ = _
    rw [hrow, map_some, ← hlen, take_length]
  have hslots' : (r.decoded out).slots = row ++ out := by rw [slots, hnew]; rfl
  refine ⟨hslots', hr.mem, hr.path, hr.length, ?_, hr.ns, by rw [hslots']; exact hpaged, ?_, ?_, ?_⟩
  · have hvals := hr.vals
    rw [hslots, ← take_append_of_le_length hprot] at hvals
    rw [hslots']
    exact hvals
  · rw [hslots', ← hslots]
    exact hr.before.trans (prefix_append _ _)
  · intro hnone
    rw [hnew] at hnone
    cases hnone
  · intro row' hrow'
    cases hnew.symm.trans hrow'
    refine ⟨?_, congrArg (· + 1) halloc, hfill, ?_, hunits⟩
    · rw [length_append, hlen, hone]
      rfl
    · rw [length_append]
      exact Nat.le_add_right_of_le hle

lemma Placed.output (hr : Placed c g r) (ts : List TokenId) (reasoning : Nat) :
    Placed c g {r with outputIds := r.outputIds ++ ts, reasoningTokens := reasoning} := by
  have htokens :
    r.tokens <+: tokens {r with outputIds := r.outputIds ++ ts, reasoningTokens := reasoning} :=
    ⟨ts, by simp [tokens]⟩
  refine ⟨hr.mem, ?_, hr.length, hr.vals, hr.ns, hr.paged, hr.before, hr.fresh, fun row hrow => ?_⟩
  · have hle : r.cacheProtectedLen ≤ unitsLen c.isEagle r.tokens.length := by
      have := congrArg List.length hr.path
      rw [hr.length, length_take, length_units] at this
      omega
    rw [hr.path, units_of_prefix htokens, take_take, min_eq_left hle]
  · obtain ⟨hlen, halloc, hfill, rest⟩ := hr.row row hrow
    exact ⟨hlen, halloc, hfill.trans htokens, rest⟩

end Sglang.Managers
