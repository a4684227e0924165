/-
**Verifying a batch of headers is verifying them one by one.**

`VerifyHeaders` hands each header of a batch to `verifyHeader` together with the headers before it
as parents, so that the batch need not be in the database yet.  The parents stand in for the chain
in two places: the parent of the header is the last of them, and the walk of `snapshot` takes its
headers from their end as long as there are any.

If the batch is contiguous and linked by hashes, this makes no difference.  `ChainReader.extend`
is the chain with some headers appended, and verifying a header with parents is *the same program*
as verifying it without parents over the chain extended by them — not only with the same answer,
but with the same effect on the caches and the database, so that the argument carries over from
one header of the batch to the next.

The point where care is needed is the end of the parents: once the walk has used them up it asks
the chain, and the extended chain must not answer with one of the appended headers.  It does not,
because all of them have a larger number than the one asked for.

Main results:

* `Prometheus.verifyHeader_extend` — **parents are verified like an extended chain**.
-/

import GoHpb.PrometheusEngine

open FailState List

section Batch

variable [Crypto]

/-! ### Batches and extended chains -/

/-- Every header has the number after the one before it, and its hash as parent. -/
def Linked (headers : List Header) : Prop :=
  headers.IsChain fun h k => k.number64 = h.number64 + 1 ∧ k.parentHash = h.hash

instance instDecidableLinked (headers : List Header) : Decidable (Linked headers) :=
  inferInstanceAs (Decidable (headers.IsChain _))

/-- The chain with headers appended: a header is stored under its hash and number, and a later one
replaces an earlier one. -/
def ChainReader.extend (chain : ChainReader) (headers : List Header) : ChainReader :=
  { chain with
    getHeader := fun hash number =>
      match headers.reverse.find? fun h => h.hash = hash && h.number64 = number with
      | some header => some header
      | none => chain.getHeader hash number }

variable {chain : ChainReader} {hash : Hash} {number : UInt64}

@[simp] theorem ChainReader.extend_nil (chain : ChainReader) : chain.extend [] = chain := rfl

theorem ChainReader.extend_append_of_ne {older newer : List Header}
    (h : ∀ k ∈ newer, k.number64 ≠ number) : (chain.extend (older ++ newer)).getHeader hash number =
      (chain.extend older).getHeader hash number := by
  have hnone : newer.reverse.find? (fun k => k.hash = hash && k.number64 = number) = none := by
    rw [find?_eq_none]
    intro k hk
    simp [h k (mem_reverse.1 hk)]
  simp only [extend, reverse_append, find?_append, hnone, Option.none_or]

theorem ChainReader.extend_concat_self (older : List Header) (last : Header) :
    (chain.extend (older ++ [last])).getHeader last.hash last.number64 = some last := by
  simp [extend]

/-! ### Snapshots -/

namespace Prometheus

variable {now : UnixTime}

theorem nextHeader_nil (chain : ChainReader) (number : UInt64) (hash : Hash) :
    nextHeader chain number hash [] =
      match chain.getHeader hash number with
      | none => .error .errUnknownAncestor
      | some header => .ok (header, []) := rfl

theorem nextHeader_concat (chain : ChainReader) (older : List Header) (last : Header) :
    nextHeader chain last.number64 last.hash (older ++ [last]) = .ok (last, older) := by
  simp [nextHeader]

/-- The walk goes on with the headers `next` leaves when no snapshot is found. -/
def walkOn (now : UnixTime) (chain : ChainReader) (n : ℕ) (headers : List Header)
    (next : Except Err (Header × List Header)) : EngineM (Historysnap × List Header) := do
  let next ← fromExcept next
  snapshotWalk now chain n next.1.parentHash next.2 (next.1 :: headers)

theorem snapshotWalk_succ_congr {chain' : ChainReader} {n : ℕ} {parents parents' : List Header}
    {headers : List Header} (h : walkOn now chain n headers
        (nextHeader chain (.ofNat (n + 1)) hash parents) =
      walkOn now chain' n headers (nextHeader chain' (.ofNat (n + 1)) hash parents')) :
    snapshotWalk now chain (n + 1) hash parents headers =
      snapshotWalk now chain' (n + 1) hash parents' headers := by
  simp only [snapshotWalk]
  congr 1
  funext found
  cases found with
  | some snap => rfl
  | none => exact h

/-- **The walk does not depend on where the headers come from.**  The parents still to be used are
`older`; those already used, `newer`, have larger numbers than the walk will ask for. -/
theorem snapshotWalk_extend :
    ∀ (n : ℕ) (hash : Hash) (older newer headers : List Header), n < 2 ^ 64 → Linked older →
      (∀ last, older.getLast? = some last → last.hash = hash ∧ last.number64 = .ofNat n) →
      (∀ k ∈ newer, n < k.number64.toNat) → snapshotWalk now chain n hash older headers =
        snapshotWalk now (chain.extend (older ++ newer)) n hash [] headers := by
  intro n
  induction n with
  | zero =>
    intro hash older newer headers _ _ _ _
    rfl
  | succ n ih =>
    intro hash older newer headers hn hlinked hlast hnewer
    have hof : (UInt64.ofNat (n + 1)).toNat = n + 1 := UInt64.toNat_ofNat_of_lt' hn
    have hne : ∀ k ∈ newer, k.number64 ≠ .ofNat (n + 1) := by
      intro k hk heq
      have hlt := hnewer k hk
      rw [heq, hof] at hlt
      omega
    have hlow : ∀ k ∈ newer, n < k.number64.toNat := by
      intro k hk
      have := hnewer k hk
      omega
    refine snapshotWalk_succ_congr ?_
    rcases eq_nil_or_concat' older with rfl | ⟨older, last, rfl⟩
    · -- the parents are used up, and both chains are asked for the same header
      rw [nextHeader_nil, nextHeader_nil, ChainReader.extend_append_of_ne hne,
        ChainReader.extend_nil]
      cases chain.getHeader hash (.ofNat (n + 1)) with
      | none => rfl
      | some header =>
        exact ih _ [] newer _ (by omega) List.IsChain.nil (by simp) hlow
    obtain ⟨rfl, hnum⟩ := hlast last (by simp)
    rw [Linked, isChain_append] at hlinked
    have hget : (chain.extend (older ++ [last] ++ newer)).getHeader last.hash last.number64 =
        some last := by
      rw [ChainReader.extend_append_of_ne (by rw [hnum]; exact hne),
        ChainReader.extend_concat_self]
    rw [← hnum, nextHeader_concat, nextHeader_nil, hget]
    rw [append_assoc]
    refine ih _ older ([last] ++ newer) _ (by omega) hlinked.1 (fun l hl => ?_) fun k hk => ?_
    · obtain ⟨hstep, hparent⟩ := hlinked.2.2 l hl last (by simp)
      refine ⟨hparent.symm, ?_⟩
      rw [hnum, UInt64.ofNat_add] at hstep
      exact (add_right_cancel hstep).symm
    · rcases mem_append.1 hk with hk | hk
      · rw [mem_singleton.1 hk, hnum, hof]
        omega
      · exact hlow k hk

variable {header : Header} {before : List Header}

variable (h : Linked (before ++ [header]))
include h

theorem snapshot_extend :
    snapshot now chain (header.number64 - 1) header.parentHash before =
      snapshot now (chain.extend before) (header.number64 - 1) header.parentHash [] := by
  rw [Linked, isChain_append] at h
  have hlast : ∀ last, before.getLast? = some last → last.hash = header.parentHash ∧
      last.number64 = .ofNat (header.number64 - 1).toNat := by
    intro last hlast
    obtain ⟨hstep, hparent⟩ := h.2.2 last hlast header (by simp)
    refine ⟨hparent.symm, ?_⟩
    rw [UInt64.ofNat_toNat, hstep, UInt64.add_sub_cancel]
  rw [snapshot, snapshot, snapshotWalk_extend _ _ before [] [] (UInt64.toNat_lt _) h.1 hlast
    (by simp), append_nil]

/-! ### Headers -/

theorem parentOf_extend :
    parentOf chain header before = parentOf (chain.extend before) header [] := by
  rcases eq_nil_or_concat' before with rfl | ⟨older, last, rfl⟩
  · rfl
  rw [Linked, isChain_append] at h
  obtain ⟨hstep, hparent⟩ := h.2.2 last (by simp) header (by simp)
  have hnum : header.number64 - 1 = last.number64 := by
    rw [hstep, UInt64.add_sub_cancel]
  simp only [parentOf, getLast?_concat, getLast?_nil]
  rw [hnum, hparent, ChainReader.extend_concat_self]

/-- **Verifying a header with parents is verifying it over the chain extended by them.** -/
theorem verifyHeader_extend :
    verifyHeader now chain header before = verifyHeader now (chain.extend before) header [] := by
  have hseal : verifySeal now chain header before =
      verifySeal now (chain.extend before) header [] := by
    rw [verifySeal, verifySeal, snapshot_extend h]
  have hcheck : ∀ config, checkParent config chain header before =
      checkParent config (chain.extend before) header [] := by
    intro config
    rw [checkParent, checkParent, parentOf_extend h]
  have hcascading : verifyCascadingFields now chain header before =
      verifyCascadingFields now (chain.extend before) header [] := by
    simp only [verifyCascadingFields, hcheck, hseal, snapshot_extend h]
  rw [verifyHeader, verifyHeader, hcascading]

omit h

end Prometheus

/-! ### Batches -/

/-- The first error of a list of results, with its position counted from `i`. -/
def firstError (i : ℕ) : List (Except Err Unit) → Option (ℕ × Err)
  | [] => none
  | .error e :: _ => some (i, e)
  | .ok _ :: results => firstError (i + 1) results

namespace Prometheus

/-- Verifying headers one by one, without parents, each over the chain with the ones before it
appended; the first error ends it. -/
def verifyOneByOne (now : UnixTime) (chain : ChainReader) (c : Prometheus)
    (before : List Header) : List Header → Option (ℕ × Err)
  | [] => none
  | header :: headers =>
    match verifyHeader now (chain.extend before) header [] c with
    | .error e _ => some (before.length, e)
    | .ok _ c => verifyOneByOne now chain c (before ++ [header]) headers

theorem firstError_verifyHeaders (now : UnixTime) (chain : ChainReader) :
    ∀ (headers before : List Header) (c : Prometheus), Linked (before ++ headers) →
      firstError before.length (verifyHeaders now chain c before headers) =
        verifyOneByOne now chain c before headers := by
  intro headers
  induction headers with
  | nil =>
    intro before c _
    rfl
  | cons header headers ih =>
    intro before c hlinked
    have hcons : before ++ header :: headers = before ++ [header] ++ headers := by simp
    have hhead : Linked (before ++ [header]) := by
      rw [hcons, Linked, isChain_append] at hlinked
      exact hlinked.1
    simp only [verifyHeaders, verifyOneByOne, verifyHeader_extend hhead]
    cases verifyHeader now (chain.extend before) header [] c with
    | error e c' => rfl
    | ok u c' =>
      have hrest := ih (before ++ [header]) c' (by rw [← hcons]; exact hlinked)
      rw [length_append, length_singleton] at hrest
      exact hrest

/-- The index of the first error of `VerifyHeaders` over a contiguous, linked batch, and that
error, are those of verifying the headers one by one over the growing chain. -/
theorem verifyHeaders_eq_oneByOne (now : UnixTime) (chain : ChainReader) (c : Prometheus)
    (headers : List Header) (h : Linked headers) :
    firstError 0 (verifyHeaders now chain c [] headers) = verifyOneByOne now chain c [] headers :=
  firstError_verifyHeaders now chain headers [] c h

end Prometheus

end Batch

open Sample in
/-- A batch of two headers after the genesis block. -/
theorem Prometheus.verifyHeaders_eq_oneByOne_followUp :
    Linked [addOutsider, followUp] ∧
      firstError 0 (verifyHeaders 2000 chain engine []
        [addOutsider, followUp]) =
      verifyOneByOne 2000 chain engine [] [addOutsider, followUp] := by
  have hlinked : Linked [addOutsider, followUp] := by decide +kernel
  exact ⟨hlinked, verifyHeaders_eq_oneByOne _ _ _ _ hlinked⟩
