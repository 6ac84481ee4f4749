import Mathlib.Data.List.Nodup
import SequentSearch.Proofs.FreshNames

/-!
# Drawing names ends, and never repeats one

A name supply is asked to take names into use and to draw new ones for stems, in any order
(`NameSupply.Request`). A new name is drawn by **trying**: the candidates for the stem are numbered
on, those in use are passed over, and the first other one is taken (`NameSupply.Draws`). Nothing
bounds the number of tries in advance. Trying ends because the candidates are pairwise different and
only finitely many names are in use, and `fresh` is its outcome (`NameSupply.exists_draws_iff`).

What is drawn was not in use, and is in use ever after. So no name is drawn twice, be it for one
stem or for two (`NameSupply.nodup_drawn`).

One counter serves all stems. Each number that it has passed belongs to a name in use, and a name
has one number only, so the counter never runs ahead of the names in use
(`NameSupply.Counted.count_le`): over any number of draws, there are no more tries than names in use
at the end.
-/

namespace SequentSearch

/-- The number of a name can be read off it: it is what comes after the last underscore. -/
theorem NameGen.number_eq_of_numbered_eq {stem stem' : String} {m n : Nat}
    (h : numbered stem m = numbered stem' n) : m = n := by
  have hdigits : ∀ k : Nat, ∀ c ∈ (toString k).toList.reverse, decide (c ≠ '_') = true := by
    intro k c hc
    have hdigit : '_' ∉ (toString k).toList := by simp
    have hne : c ≠ '_' := fun heq => hdigit (heq ▸ List.mem_reverse.mp hc)
    exact decide_eq_true hne
  have hread : ∀ (s : String) (k : Nat), (numbered s k).toList.reverse.takeWhile (· ≠ '_') =
      (toString k).toList.reverse := by
    intro s k
    rw [numbered, String.toList_append, String.toList_append, List.reverse_append,
      List.reverse_append, List.takeWhile_append_of_pos (hdigits k)]
    simp
  have hreverse : (toString m).toList.reverse = (toString n).toList.reverse := by
    rw [← hread stem m, h, hread stem' n]
  exact toString_nat_injective (String.toList_injective (List.reverse_injective hreverse))

namespace NameSupply

variable {ns ns' ns'' : NameSupply} {stem name name' : String}

/-! ## Trying -/

/-- **Drawing a name** by so many tries: a candidate that is in use is passed over, and the first
other one is taken into use. -/
inductive Draws (stem : String) : Nat → NameSupply → String → NameSupply → Prop where
  /-- the next candidate is free -/
  | take {ns : NameSupply} (h : ns.isUnused (ns.gen.next stem).1) :
      Draws stem 1 ns (ns.gen.next stem).1
        ({ ns with gen := (ns.gen.next stem).2 }.register (ns.gen.next stem).1)
  /-- the next candidate is in use -/
  | pass {ns ns' : NameSupply} {name : String} {tries : Nat}
      (h : ¬ ns.isUnused (ns.gen.next stem).1)
      (rest : Draws stem tries { ns with gen := (ns.gen.next stem).2 } name ns') :
      Draws stem (tries + 1) ns name ns'

/-- Trying has no two outcomes. -/
theorem Draws.unique {k k' : Nat} (h : Draws stem k ns name ns')
    (h' : Draws stem k' ns name' ns'') :
    k = k' ∧ name = name' ∧ ns' = ns'' := by
  induction h generalizing k' with
  | take hfree =>
    cases h' with
    | take => exact ⟨rfl, rfl, rfl⟩
    | pass hused => exact absurd hfree hused
  | pass hused _ ih =>
    cases h' with
    | take hfree => exact absurd hfree hused
    | pass _ rest' =>
      obtain ⟨rfl, rfl, rfl⟩ := ih rest'
      exact ⟨rfl, rfl, rfl⟩

theorem register_withGen (ns : NameSupply) (name : String) (g : NameGen) :
    { ns with gen := g }.register name = { ns.register name with gen := g } := by
  unfold register
  split <;> rfl

/-- Candidates in use are passed over one by one. -/
theorem draws_of_passed {i : Nat} (hfree : NameGen.numbered stem (ns.gen.count + i) ∉ ns.used)
    (hpassed : ∀ j < i, NameGen.numbered stem (ns.gen.count + j) ∈ ns.used) :
    Draws stem (i + 1) ns (NameGen.numbered stem (ns.gen.count + i))
      ({ ns with gen := ⟨ns.gen.count + i + 1⟩ }.register
        (NameGen.numbered stem (ns.gen.count + i))) := by
  induction i generalizing ns with
  | zero => exact .take (isUnused_iff.mpr hfree)
  | succ i ih =>
    have hnext : ∀ j, ns.gen.count + (j + 1) = ns.gen.count + 1 + j := fun j => by omega
    have hused := hpassed 0 i.succ_pos
    have hrest : ∀ j < i, NameGen.numbered stem (ns.gen.count + 1 + j) ∈ ns.used := fun j hj =>
      hnext j ▸ hpassed (j + 1) (Nat.succ_lt_succ hj)
    rw [hnext] at hfree ⊢
    exact .pass (fun hunused => isUnused_iff.mp hunused hused)
      (@ih { ns with gen := ⟨ns.gen.count + 1⟩ } hfree hrest)

/-- **Trying ends**, after no more tries than there are names in use and one more, and what is drawn
is what `fresh` returns. -/
theorem exists_draws_iff (ns : NameSupply) (stem : String) :
    ∃ tries ≤ ns.used.length + 1, ∀ k name ns', Draws stem k ns name ns' ↔
      k = tries ∧ (name, ns') = ns.fresh stem := by
  obtain ⟨i, hi, hfirst, hfree, hpassed⟩ := ns.firstUnused_spec stem
  have hdraws : Draws stem (i + 1) ns (ns.fresh stem).1 (ns.fresh stem).2 := by
    rw [fresh, hfirst, ← register_withGen]
    exact draws_of_passed hfree hpassed
  refine ⟨i + 1, Nat.succ_le_succ hi, fun k name ns' => ⟨fun h => ?_, ?_⟩⟩
  · obtain ⟨rfl, rfl, rfl⟩ := h.unique hdraws
    exact ⟨rfl, rfl⟩
  · rintro ⟨rfl, heq⟩
    obtain ⟨rfl, rfl⟩ := Prod.mk.inj heq
    exact hdraws

/-! ## Requests -/

/-- What can be asked of a name supply. -/
inductive Request where
  /-- take a name into use -/
  | register (name : String)
  /-- take the names of a term into use -/
  | registerTerm (t : Term)
  /-- draw a name for a stem -/
  | fresh (stem : String)

/-- The names that a request takes into use, other than by drawing. -/
def Request.names : Request → List String
  | register name => [name]
  | registerTerm t => t.subterms.flatMap ownNames
  | fresh _ => []

/-- The name supply after a request. -/
def serve (ns : NameSupply) : Request → NameSupply
  | .register name => ns.register name
  | .registerTerm t => ns.registerTerm t
  | .fresh stem => (ns.fresh stem).2

/-- The name that is drawn for a request, if it asks for one. -/
def drawnFor (ns : NameSupply) : Request → List String
  | .fresh stem => [(ns.fresh stem).1]
  | _ => []

/-- The name supply after some requests. -/
def after (ns : NameSupply) (requests : List Request) : NameSupply := requests.foldl serve ns

/-- The names that are drawn for some requests, in order. -/
def drawn (ns : NameSupply) : List Request → List String
  | [] => []
  | r :: requests => ns.drawnFor r ++ (ns.serve r).drawn requests

/-- **A request** takes its names and the one that is drawn for it into use, and no other. -/
theorem mem_serve {r : Request} :
    name ∈ (ns.serve r).used ↔ name ∈ ns.drawnFor r ∨ name ∈ r.names ∨ name ∈ ns.used := by
  cases r with
  | register n => simp [serve, drawnFor, Request.names, mem_register]
  | registerTerm t => simp [serve, drawnFor, Request.names, registerTerm, mem_foldl_register]
  | fresh stem => simp [serve, drawnFor, Request.names, mem_fresh]

/-- What is drawn for a request was not in use. -/
theorem not_mem_of_mem_drawnFor {r : Request} (h : name ∈ ns.drawnFor r) : name ∉ ns.used := by
  cases r with
  | register n => cases h
  | registerTerm t => cases h
  | fresh stem =>
    obtain rfl := List.mem_singleton.mp h
    exact fresh_not_mem ns stem

theorem nodup_drawnFor (ns : NameSupply) (r : Request) : (ns.drawnFor r).Nodup := by
  cases r <;> simp [drawnFor]

variable {requests : List Request}

/-- **The names in use** after some requests are those before, those drawn, and those of the
requests. -/
theorem mem_after :
    name ∈ (ns.after requests).used ↔
      name ∈ ns.drawn requests ∨ name ∈ requests.flatMap Request.names ∨ name ∈ ns.used := by
  induction requests generalizing ns with
  | nil => simp [after, drawn]
  | cons r requests ih =>
    rw [after, List.foldl_cons, ← after, ih, mem_serve, drawn, List.mem_append, List.flatMap_cons,
      List.mem_append]
    tauto

theorem not_mem_of_mem_drawn (h : name ∈ ns.drawn requests) : name ∉ ns.used := by
  induction requests generalizing ns with
  | nil => cases h
  | cons r requests ih =>
    rcases List.mem_append.mp h with h | h
    · exact not_mem_of_mem_drawnFor h
    · exact fun hused => ih h (mem_serve.mpr (.inr (.inr hused)))

/-- **No name is drawn twice.** -/
theorem nodup_drawn (ns : NameSupply) (requests : List Request) : (ns.drawn requests).Nodup := by
  induction requests generalizing ns with
  | nil => exact List.nodup_nil
  | cons r requests ih =>
    refine List.nodup_append.mpr ⟨nodup_drawnFor ns r, ih (ns.serve r), ?_⟩
    rintro n hn _ hlater rfl
    exact not_mem_of_mem_drawn hlater (mem_serve.mpr (.inl hn))

/-! ## The counter -/

/-- Each number that the counter has passed belongs to a name in use. -/
def Counted (ns : NameSupply) : Prop :=
  ∀ n < ns.gen.count, ∃ stem, NameGen.numbered stem n ∈ ns.used

theorem gen_register (ns : NameSupply) (name : String) : (ns.register name).gen = ns.gen := by
  unfold register
  split <;> rfl

theorem gen_foldl_register (ns : NameSupply) (names : List String) :
    (names.foldl register ns).gen = ns.gen := by
  induction names generalizing ns with
  | nil => rfl
  | cons name names ih => rw [List.foldl_cons, ih, gen_register]

/-- A request keeps the numbers counted: the candidates that are passed over are in use already, and
the one that is taken is from then on. -/
theorem Counted.serve (h : ns.Counted) (r : Request) : (ns.serve r).Counted := by
  have hkeep : ∀ n < ns.gen.count, ∃ stem, NameGen.numbered stem n ∈ (ns.serve r).used := by
    intro n hn
    obtain ⟨stem, hused⟩ := h n hn
    exact ⟨stem, mem_serve.mpr (.inr (.inr hused))⟩
  cases r with
  | register name => exact fun n hn => hkeep n (gen_register ns name ▸ hn)
  | registerTerm t => exact fun n hn => hkeep n (gen_foldl_register ns _ ▸ hn)
  | fresh stem =>
    intro n hn
    obtain ⟨i, -, hfirst, -, hpassed⟩ := ns.firstUnused_spec stem
    have hle : n < ns.firstUnused stem + 1 := hn
    by_cases hold : n < ns.gen.count
    · exact hkeep n hold
    · refine ⟨stem, mem_fresh.mpr ?_⟩
      obtain ⟨j, rfl⟩ := Nat.exists_eq_add_of_le (Nat.le_of_not_lt hold)
      by_cases hj : j < i
      · exact .inr (hpassed j hj)
      · obtain rfl : j = i := by omega
        exact .inl (by rw [fresh, hfirst])

theorem Counted.after (h : ns.Counted) (requests : List Request) : (ns.after requests).Counted := by
  induction requests generalizing ns with
  | nil => exact h
  | cons r requests ih => exact ih (h.serve r)

/-- **The counter never runs ahead of the names in use.** -/
theorem Counted.count_le (h : ns.Counted) : ns.gen.count ≤ ns.used.length := by
  choose! stem hused using h
  have hinjective : Function.Injective fun n => NameGen.numbered (stem n) n := fun _ _ heq =>
    NameGen.number_eq_of_numbered_eq heq
  obtain ⟨n, hn, hfree⟩ := exists_unused hinjective ns.used
  by_contra hlt
  exact hfree (hused n (by omega))

/-! ## Drawing -/

/-- **Drawing a name for a stem ends with a new name.** -/
structure DrawsNew (ns : NameSupply) (stem : String) : Prop where
  /-- trying ends, and `fresh` is its only outcome -/
  ends : ∃ tries ≤ ns.used.length + 1, ∀ k name ns', Draws stem k ns name ns' ↔
    k = tries ∧ (name, ns') = ns.fresh stem
  /-- the name is the stem with a number -/
  numbered : ∃ n : Nat, (ns.fresh stem).1 = stem ++ "_" ++ toString n
  /-- it is not in use before -/
  unused : ns.isUnused (ns.fresh stem).1
  /-- it is in use afterwards -/
  used : ¬ (ns.fresh stem).2.isUnused (ns.fresh stem).1

theorem drawsNew (ns : NameSupply) (stem : String) : ns.DrawsNew stem where
  ends := exists_draws_iff ns stem
  numbered := ⟨ns.firstUnused stem, rfl⟩
  unused := isUnused_iff.mpr (fresh_not_mem ns stem)
  used hunused := isUnused_iff.mp hunused (mem_fresh.mpr (.inl rfl))

/-- **Drawing names ends, and never repeats one.** After any requests to an empty name supply,
drawing a name for any stem ends with a new name. The names in use are those that were drawn and
those of the requests, and no more candidates have been tried than there are of them. All names that
were drawn are pairwise different. -/
theorem drawing_never_repeats (requests : List Request) :
    (∀ stem, (empty.after requests).DrawsNew stem) ∧
      (∀ name, (empty.after requests).isUnused name ↔
        name ∉ empty.drawn requests ∧ name ∉ requests.flatMap Request.names) ∧
      (empty.after requests).gen.count ≤ (empty.after requests).used.length ∧
      (empty.drawn requests).Nodup := by
  have hempty : empty.Counted := fun _ hn => absurd hn (Nat.not_lt_zero _)
  refine ⟨drawsNew _, fun name => ?_, (hempty.after requests).count_le, nodup_drawn empty requests⟩
  have hnone : name ∉ empty.used := List.not_mem_nil
  rw [isUnused_iff, mem_after]
  tauto

end NameSupply

end SequentSearch
