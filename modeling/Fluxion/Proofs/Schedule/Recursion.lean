import Fluxion.Proofs.Schedule.Reachability
import Mathlib.Data.Finset.Max
import Mathlib.Data.Fintype.Card
import Mathlib.Order.WellFounded

/-!
# The walk is the recursive postorder

A postorder is said most plainly by recursion: nothing is done for a node that has been listed, and
any other node is listed after its children have been treated in the same way, from left to right. The
walk does without recursion. It marks a node when it is met, not when it is listed, and keeps for each
open node the children that are still to be looked at.

Here the two are shown to agree on every finite acyclic graph, however its nodes are numbered. The
graphs of this library number children before their parents, which `Listing` relies on; what is needed
is less, that no node is built from itself. A child that is met again while it is open would be one
that reaches itself, so the marks that the walk makes too early never matter.

That the loop of a walk ends is said without the number of steps that `Postorder.walk` is given: its
rounds are counted, and the stack is empty after as many rounds as the nodes and their children allow.

## Main definitions

* `Postorder.FiniteDag` — a finite acyclic graph by a function that lists children
* `Postorder.FiniteDag.postorder` — the recursive postorder
* `Postorder.Walk.next` — one round of the loop

## Main results

* `Postorder.walk_eq_iterate` — a walk goes through the rounds one by one
* `Postorder.FiniteDag.Inside.isOver_iterate` — **every walk ends**
* `Postorder.FiniteDag.treats` — what a walk does with an open node is what recursion does
* `Postorder.FiniteDag.visits_recursively` — **walks list the recursive postorder**
-/

namespace Fluxion

namespace Postorder

/-! ### Finite acyclic graphs -/

/-- A finite acyclic graph. Nothing is asked of numbers that are no nodes. -/
structure FiniteDag where
  children : Nat → List Nat
  nodes : Finset Nat
  closed : ∀ n ∈ nodes, ∀ c ∈ children n, c ∈ nodes
  acyclic : ∀ n ∈ nodes, ∀ c ∈ children n, ¬ Reaches children c n

namespace FiniteDag

/-- Children that come before their parents in some ranking make no cycles. -/
theorem not_reaches_of_rank {children : Nat → List Nat} (rank : Nat → Nat)
    (hrank : ∀ n, ∀ c ∈ children n, rank c < rank n) {n c : Nat} (hc : c ∈ children n) :
    ¬ Reaches children c n := by
  have hle : ∀ {m}, Reaches children c m → rank m ≤ rank c := by
    intro m hm
    induction hm with
    | refl => exact Nat.le_refl _
    | tail _ hchild ih => exact Nat.le_trans (Nat.le_of_lt (hrank _ _ hchild)) ih
  intro h
  exact absurd (hrank n c hc) (Nat.not_lt.mpr (hle h))

variable (G : FiniteDag)

/-- The children of a node, as nodes. -/
def childNodes (n : G.nodes) : List G.nodes :=
  (G.children n).attachWith (· ∈ G.nodes) (G.closed n n.2)

@[simp] theorem mem_childNodes {n c : G.nodes} : c ∈ G.childNodes n ↔ (c : Nat) ∈ G.children n :=
  List.mem_attachWith ..

@[simp] theorem map_childNodes (n : G.nodes) : (G.childNodes n).map (↑) = G.children n :=
  (List.attachWith_map_val ..).trans (List.map_id _)

/-- What a node reaches below its children is below it, and it is not below itself. -/
theorem wellFounded : WellFounded fun c n : G.nodes => c ∈ G.childNodes n := by
  let Below : G.nodes → G.nodes → Prop := fun m n =>
    ∃ c ∈ G.children n, Reaches G.children c m
  have htrans : IsTrans G.nodes Below := by
    refine ⟨fun k m n hkm hmn => ?_⟩
    obtain ⟨d, hd, hdk⟩ := hkm
    obtain ⟨c, hc, hcm⟩ := hmn
    exact ⟨c, hc, (hcm.tail hd).trans hdk⟩
  have hirrefl : Std.Irrefl Below := by
    refine ⟨fun n hn => ?_⟩
    obtain ⟨c, hc, hcn⟩ := hn
    exact G.acyclic n n.2 c hc hcn
  have hwf : WellFounded Below := Finite.wellFounded_of_trans_of_irrefl Below
  exact Subrelation.wf (fun {c n} hc => ⟨c, G.mem_childNodes.mp hc, .refl⟩) hwf

/-! ### Recursion -/

/-- What has been listed when a node has been treated: nothing more if it had been listed, and
otherwise what its children add, from left to right, and then the node. -/
def postorder (listed : List Nat) (n : G.nodes) : List Nat :=
  if (n : Nat) ∈ listed then listed
  else (G.childNodes n).attach.foldl (fun listed c => postorder listed c.1) listed ++ [(n : Nat)]
termination_by G.wellFounded.wrap n
decreasing_by exact c.2

theorem postorder_eq (listed : List Nat) (n : G.nodes) :
    G.postorder listed n =
      if (n : Nat) ∈ listed then listed
      else (G.childNodes n).foldl G.postorder listed ++ [(n : Nat)] := by
  rw [postorder, List.foldl_subtype (g := G.postorder) (fun _ _ _ => rfl), List.unattach_attach]

theorem postorder_of_mem {listed : List Nat} {n : G.nodes} (hn : (n : Nat) ∈ listed) :
    G.postorder listed n = listed := by
  rw [postorder_eq, if_pos hn]

theorem postorder_of_notMem {listed : List Nat} {n : G.nodes} (hn : (n : Nat) ∉ listed) :
    G.postorder listed n = (G.childNodes n).foldl G.postorder listed ++ [(n : Nat)] := by
  rw [postorder_eq, if_neg hn]

/-! ### What recursion lists -/

/-- What treating several nodes makes of a listing: a listing that has them, and for the rest only
what it had and what they reach. -/
structure Extends (listed : List Nat) (treated : List G.nodes) (listed' : List Nat) : Prop where
  listing : IsListing G.children listed'
  keeps : listed ⊆ listed'
  has : ∀ n ∈ treated, (n : Nat) ∈ listed'
  only : ∀ m ∈ listed', m ∈ listed ∨ ∃ n ∈ treated, Reaches G.children n m

variable {G}

theorem extends_nil {listed : List Nat} (h : IsListing G.children listed) :
    G.Extends listed [] listed :=
  ⟨h, List.Subset.refl _, by simp, fun _ hm => .inl hm⟩

theorem Extends.cons {listed listed' listed'' : List Nat} {n : G.nodes} {rest : List G.nodes}
    (hn : G.Extends listed [n] listed') (hrest : G.Extends listed' rest listed'') :
    G.Extends listed (n :: rest) listed'' where
  listing := hrest.listing
  keeps := List.Subset.trans hn.keeps hrest.keeps
  has m hm := by
    rcases List.mem_cons.mp hm with rfl | hm
    · exact hrest.keeps (hn.has m (List.mem_singleton_self m))
    · exact hrest.has m hm
  only m hm := by
    rcases hrest.only m hm with hm | ⟨k, hk, hkm⟩
    · rcases hn.only m hm with hm | ⟨k, hk, hkm⟩
      · exact .inl hm
      · obtain rfl := List.mem_singleton.mp hk
        exact .inr ⟨k, List.mem_cons_self, hkm⟩
    · exact .inr ⟨k, List.mem_cons_of_mem n hk, hkm⟩

/-- If each of several nodes extends a listing when it is treated, they do so one after the other. -/
theorem extends_foldl {nodes : List G.nodes}
    (hnodes : ∀ n ∈ nodes, ∀ listed, IsListing G.children listed →
      G.Extends listed [n] (G.postorder listed n))
    {listed : List Nat} (h : IsListing G.children listed) :
    G.Extends listed nodes (nodes.foldl G.postorder listed) := by
  induction nodes generalizing listed with
  | nil => exact extends_nil h
  | cons n rest ih =>
    obtain ⟨hn, hrest⟩ := List.forall_mem_cons.mp hnodes
    exact (hn listed h).cons (ih hrest (hn listed h).listing)

/-- **Recursion makes listings.** -/
theorem extends_postorder (n : G.nodes) {listed : List Nat} (h : IsListing G.children listed) :
    G.Extends listed [n] (G.postorder listed n) := by
  induction n using G.wellFounded.induction generalizing listed with
  | _ n ih =>
    by_cases hn : (n : Nat) ∈ listed
    · rw [G.postorder_of_mem hn]
      exact ⟨h, List.Subset.refl _, by simpa using hn, fun _ hm => .inl hm⟩
    · rw [G.postorder_of_notMem hn]
      have hbelow := extends_foldl (fun c hc _ => ih c hc) h
      have hnew : (n : Nat) ∉ (G.childNodes n).foldl G.postorder listed := by
        intro hmem
        rcases hbelow.only n hmem with hmem | ⟨c, hc, hreach⟩
        · exact hn hmem
        · exact G.acyclic n n.2 c (G.mem_childNodes.mp hc) hreach
      refine ⟨hbelow.listing.concat hnew fun c hc => ?_, ?_, by simp, fun m hm => ?_⟩
      · exact hbelow.has ⟨c, G.closed n n.2 c hc⟩ (G.mem_childNodes.mpr hc)
      · exact List.Subset.trans hbelow.keeps (List.subset_append_left _ _)
      · rcases List.mem_append.mp hm with hm | hm
        · refine (hbelow.only m hm).imp_right ?_
          rintro ⟨c, hc, hcm⟩
          exact ⟨n, List.mem_singleton_self n, hcm.head (G.mem_childNodes.mp hc)⟩
        · obtain rfl := List.mem_singleton.mp hm
          exact .inr ⟨n, List.mem_singleton_self n, .refl⟩

end FiniteDag

/-! ### Rounds of the loop -/

/-- What the loop of a walk works on: the open nodes, the nodes met, and the nodes listed, the last
first. -/
structure Walk where
  stack : List Frame
  seen : NumberSet
  listed : List Nat

namespace Walk

variable {children : Nat → List Nat} {w w' w'' : Walk}

/-- One round closes a node or looks at one child. Without open nodes nothing is done. -/
def next (children : Nat → List Nat) : Walk → Walk
  | ⟨[], seen, listed⟩ => ⟨[], seen, listed⟩
  | ⟨⟨node, []⟩ :: stack, seen, listed⟩ => ⟨stack, seen, node :: listed⟩
  | ⟨⟨node, child :: rest⟩ :: stack, seen, listed⟩ =>
    if seen.contains child then ⟨⟨node, rest⟩ :: stack, seen, listed⟩
    else ⟨⟨child, children child⟩ :: ⟨node, rest⟩ :: stack, seen.insert child, listed⟩

/-- The walk from a root that has not been met. -/
def start (children : Nat → List Nat) (seen : NumberSet) (root : Nat) : Walk :=
  ⟨[⟨root, children root⟩], seen.insert root, []⟩

/-- The loop gets from one state to another. -/
def Leads (children : Nat → List Nat) (w w' : Walk) : Prop := ∃ k, (next children)^[k] w = w'

theorem Leads.refl (w : Walk) : Leads children w w := ⟨0, rfl⟩

theorem Leads.head (h : Leads children (next children w) w') : Leads children w w' := by
  obtain ⟨k, hk⟩ := h
  exact ⟨k + 1, hk⟩

theorem Leads.trans (h : Leads children w w') (h' : Leads children w' w'') :
    Leads children w w'' := by
  obtain ⟨k, rfl⟩ := h
  obtain ⟨l, rfl⟩ := h'
  exact ⟨l + k, Function.iterate_add_apply ..⟩

/-- The steps that are left for a walk through nodes below `size`. -/
def work (children : Nat → List Nat) (size : Nat) (w : Walk) : Nat :=
  frameSteps w.stack + pending children w.seen size

theorem iterate_of_isOver (hw : w.stack = []) (k : Nat) : (next children)^[k] w = w := by
  obtain ⟨stack, seen, listed⟩ := w
  obtain rfl : stack = [] := hw
  exact Function.iterate_fixed rfl k

/-- A loop that is over after some rounds is where it leads to, if that is over as well. -/
theorem Leads.eq_iterate (h : Leads children w w') (hw' : w'.stack = []) {steps : Nat}
    (hover : ((next children)^[steps] w).stack = []) : (next children)^[steps] w = w' := by
  obtain ⟨k, rfl⟩ := h
  rcases Nat.le_total k steps with hle | hle
  · obtain ⟨more, rfl⟩ := Nat.exists_eq_add_of_le' hle
    rw [Function.iterate_add_apply, iterate_of_isOver hw']
  · obtain ⟨more, rfl⟩ := Nat.exists_eq_add_of_le' hle
    rw [Function.iterate_add_apply, iterate_of_isOver hover]

end Walk

variable {children : Nat → List Nat}

/-- **A walk goes through the rounds one by one.** -/
theorem walk_eq_iterate (steps : Nat) (w : Walk) :
    walk children steps w.stack w.seen w.listed
      = (((Walk.next children)^[steps] w).seen, ((Walk.next children)^[steps] w).listed) := by
  induction steps generalizing w with
  | zero => rfl
  | succ steps ih =>
    rw [Function.iterate_succ_apply, ← ih]
    obtain ⟨stack, seen, listed⟩ := w
    match stack with
    | [] =>
      cases steps <;> rfl
    | ⟨node, []⟩ :: stack => rfl
    | ⟨node, child :: rest⟩ :: stack =>
      rw [walk, Walk.next]
      split <;> rfl

theorem visit_eq_iterate {seen : NumberSet} {root : Nat} (hr : seen.contains root = false)
    (steps : Nat) :
    visit children steps seen root
      = (((Walk.next children)^[steps] (.start children seen root)).seen,
        ((Walk.next children)^[steps] (.start children seen root)).listed.reverse) := by
  have hwalk := @walk_eq_iterate children steps (.start children seen root)
  rw [visit, hr, if_neg Bool.false_ne_true]
  simp only [Walk.start] at hwalk ⊢
  rw [hwalk]

namespace FiniteDag

variable {G : FiniteDag} {size steps : Nat} {w : Walk}

/-! ### Every walk ends -/

/-- All that is still to be looked at are nodes. -/
def Inside (G : FiniteDag) (w : Walk) : Prop := ∀ f ∈ w.stack, ∀ c ∈ f.waiting, c ∈ G.nodes

theorem inside_start (seen : NumberSet) (root : G.nodes) :
    G.Inside (.start G.children seen root) := by
  intro f hf
  obtain rfl := List.mem_singleton.mp hf
  exact G.closed root root.2

theorem Inside.next (hw : G.Inside w) : G.Inside (w.next G.children) := by
  obtain ⟨stack, seen, listed⟩ := w
  match stack with
  | [] => exact hw
  | ⟨node, []⟩ :: stack => exact fun f hf => hw f (List.mem_cons_of_mem _ hf)
  | ⟨node, child :: rest⟩ :: stack =>
    obtain ⟨hfirst, hlater⟩ := List.forall_mem_cons.mp hw
    obtain ⟨hchild, hrest⟩ := List.forall_mem_cons.mp hfirst
    have hframe : ∀ f ∈ (⟨node, rest⟩ : Frame) :: stack, ∀ c ∈ f.waiting, c ∈ G.nodes :=
      List.forall_mem_cons.mpr ⟨hrest, hlater⟩
    rw [Walk.next]
    split
    · exact hframe
    · exact List.forall_mem_cons.mpr ⟨G.closed child hchild, hframe⟩

/-- A round takes one step off, whatever it does: a child that is opened brings steps for its own
children, and these were counted for it while it had not been met. -/
theorem Inside.work_next (hsize : ∀ n ∈ G.nodes, n < size) (hw : G.Inside w) (hopen : w.stack ≠ []) :
    (w.next G.children).work G.children size + 1 = w.work G.children size := by
  obtain ⟨stack, seen, listed⟩ := w
  match stack with
  | [] => contradiction
  | ⟨node, []⟩ :: stack =>
    simp only [Walk.next, Walk.work, frameSteps_cons, List.length_nil]
    omega
  | ⟨node, child :: rest⟩ :: stack =>
    have hchild : child ∈ G.nodes := hw _ List.mem_cons_self child List.mem_cons_self
    rw [Walk.next]
    cases hc : seen.contains child with
    | true =>
      simp only [if_pos, Walk.work, frameSteps_cons, List.length_cons]
      omega
    | false =>
      have hpay := @pending_insert G.children _ _ _ hc (hsize child hchild)
      simp only [Bool.false_eq_true, if_false, Walk.work, frameSteps_cons, List.length_cons]
      omega

/-- **Every walk ends.** -/
theorem Inside.isOver_iterate (hsize : ∀ n ∈ G.nodes, n < size) (hw : G.Inside w)
    (hsteps : w.work G.children size ≤ steps) :
    ((Walk.next G.children)^[steps] w).stack = [] := by
  induction steps generalizing w with
  | zero =>
    by_contra hopen
    have := hw.work_next hsize hopen
    omega
  | succ steps ih =>
    by_cases hopen : w.stack = []
    · rw [Walk.iterate_of_isOver hopen, hopen]
    · have := hw.work_next hsize hopen
      rw [Function.iterate_succ_apply]
      exact ih hw.next (by omega)

/-- The walk of a root ends within the steps that a graph of a size allows. -/
theorem isOver_start (hsize : ∀ n ∈ G.nodes, n < size) (hsteps : stepBound G.children size ≤ steps)
    {seen : NumberSet} (root : G.nodes) (hr : seen.contains root = false) :
    ((Walk.next G.children)^[steps] (.start G.children seen root)).stack = [] :=
  (inside_start seen root).isOver_iterate hsize
    (frameSteps_start_le hsteps (hsize root root.2) hr)

/-! ### Walks and recursion -/

/-- What has been met is what has been listed, by earlier walks or by this one, and what is open. -/
def Marked (done : List Nat) (w : Walk) : Prop :=
  ∀ m, w.seen.contains m = true ↔ m ∈ done ++ w.listed.reverse ∨ m ∈ w.stack.map Frame.node

/-- What a walk makes of an open node: it gets to where the node is closed, and has listed what the
recursive postorder lists. -/
def Treats (G : FiniteDag) (n : G.nodes) : Prop :=
  ∀ (done : List Nat) (stack : List Frame) (seen : NumberSet) (listed : List Nat),
    (n : Nat) ∉ done ++ listed.reverse →
    (∀ f ∈ stack, ¬ Reaches G.children n f.node) →
    Marked done ⟨⟨n, G.children n⟩ :: stack, seen, listed⟩ →
    ∃ seen' listed', Walk.Leads G.children ⟨⟨n, G.children n⟩ :: stack, seen, listed⟩
        ⟨stack, seen', listed'⟩ ∧
      done ++ listed'.reverse = G.postorder (done ++ listed.reverse) n ∧
      Marked done ⟨stack, seen', listed'⟩

/-- A child that has been met is listed, since an open one would reach itself. -/
theorem mem_of_seen {done : List Nat} {n c : G.nodes} (hc : c ∈ G.childNodes n) {stack : List Frame}
    (hopen : ∀ f ∈ stack, ¬ Reaches G.children n f.node) {waiting : List Nat} {seen : NumberSet}
    {listed : List Nat} (hmarked : Marked done ⟨⟨n, waiting⟩ :: stack, seen, listed⟩)
    (hseen : seen.contains c = true) : (c : Nat) ∈ done ++ listed.reverse := by
  have hchild := G.mem_childNodes.mp hc
  rcases (hmarked c).mp hseen with hmem | hmem
  · exact hmem
  · rcases List.mem_cons.mp hmem with heq | hmem
    · exact absurd (heq ▸ .refl) (G.acyclic n n.2 c hchild)
    · obtain ⟨f, hf, heq⟩ := List.mem_map.mp hmem
      exact absurd (heq ▸ .single hchild) (hopen f hf)

/-- The children of an open node are treated from left to right. -/
theorem leads_children {n : G.nodes} (ih : ∀ c ∈ G.childNodes n, G.Treats c) {done : List Nat}
    {stack : List Frame} (hopen : ∀ f ∈ stack, ¬ Reaches G.children n f.node)
    {cs : List G.nodes} (hcs : ∀ c ∈ cs, c ∈ G.childNodes n) {seen : NumberSet} {listed : List Nat}
    (hmarked : Marked done ⟨⟨n, cs.map (↑)⟩ :: stack, seen, listed⟩) :
    ∃ seen' listed', Walk.Leads G.children ⟨⟨n, cs.map (↑)⟩ :: stack, seen, listed⟩
        ⟨⟨n, []⟩ :: stack, seen', listed'⟩ ∧
      done ++ listed'.reverse = cs.foldl G.postorder (done ++ listed.reverse) ∧
      Marked done ⟨⟨n, []⟩ :: stack, seen', listed'⟩ := by
  induction cs generalizing seen listed with
  | nil => exact ⟨seen, listed, .refl _, rfl, hmarked⟩
  | cons c rest ihrest =>
    obtain ⟨hc, hrest⟩ := List.forall_mem_cons.mp hcs
    have hchild := G.mem_childNodes.mp hc
    have hround : Walk.next G.children ⟨⟨n, (c :: rest).map (↑)⟩ :: stack, seen, listed⟩
        = if seen.contains c then ⟨⟨n, rest.map (↑)⟩ :: stack, seen, listed⟩
          else ⟨⟨c, G.children c⟩ :: ⟨n, rest.map (↑)⟩ :: stack, seen.insert c, listed⟩ := rfl
    cases hseen : seen.contains c with
    | true =>
      rw [hseen, if_pos rfl] at hround
      have hlisted := mem_of_seen hc hopen hmarked hseen
      obtain ⟨seen', listed', hleads, hout, hmarked'⟩ := ihrest hrest hmarked
      refine ⟨seen', listed', .head (hround ▸ hleads), ?_, hmarked'⟩
      rw [hout, List.foldl_cons, G.postorder_of_mem hlisted]
    | false =>
      rw [hseen, if_neg Bool.false_ne_true] at hround
      have hnew : ¬ ((c : Nat) ∈ done ++ listed.reverse ∨
          (c : Nat) ∈ (n : Nat) :: stack.map Frame.node) :=
        fun hmem => by simpa [hseen] using (hmarked c).mpr hmem
      have hopen' : ∀ f ∈ (⟨n, rest.map (↑)⟩ : Frame) :: stack, ¬ Reaches G.children c f.node :=
        List.forall_mem_cons.mpr ⟨G.acyclic n n.2 c hchild, fun f hf hreach =>
          hopen f hf (.head hchild hreach)⟩
      have hmarked' : Marked done
          ⟨⟨c, G.children c⟩ :: ⟨n, rest.map (↑)⟩ :: stack, seen.insert c, listed⟩ := by
        intro m
        have hm := hmarked m
        simp only [List.map_cons, List.mem_cons, NumberSet.contains_insert, Bool.or_eq_true,
          decide_eq_true_eq] at hm ⊢
        rw [hm]
        exact or_assoc.trans (or_congr_right or_comm)
      obtain ⟨seen₁, listed₁, hleads₁, hout₁, hmarked₁⟩ :=
        ih c hc done _ _ _ (not_or.mp hnew).1 hopen' hmarked'
      obtain ⟨seen₂, listed₂, hleads₂, hout₂, hmarked₂⟩ := ihrest hrest hmarked₁
      refine ⟨seen₂, listed₂, .head (hround ▸ hleads₁.trans hleads₂), ?_, hmarked₂⟩
      rw [hout₂, hout₁, List.foldl_cons]

/-- **What a walk does with an open node is what recursion does.** -/
theorem treats (n : G.nodes) : G.Treats n := by
  induction n using G.wellFounded.induction with
  | _ n ih =>
    intro done stack seen listed hnew hopen hmarked
    rw [← G.map_childNodes n] at hmarked ⊢
    obtain ⟨seen', listed', hleads, hout, hmarked'⟩ :=
      leads_children ih hopen (fun c hc => hc) hmarked
    have hall : done ++ ((n : Nat) :: listed').reverse = (done ++ listed'.reverse) ++ [(n : Nat)] := by
      simp
    refine ⟨seen', n :: listed', hleads.trans (.head (.refl _)), ?_, fun m => ?_⟩
    · rw [hall, hout, G.postorder_of_notMem hnew]
    · rw [hmarked' m, hall, List.map_cons, List.mem_cons, List.mem_append (t := [(n : Nat)]),
        List.mem_singleton, or_assoc]

/-! ### Several roots -/

section

variable (hsize : ∀ n ∈ G.nodes, n < size) (hsteps : stepBound G.children size ≤ steps)

include hsize hsteps

/-- What one root adds. -/
theorem append_visit {done : List Nat} {seen : NumberSet}
    (hseen : ∀ m, seen.contains m = true ↔ m ∈ done) (root : G.nodes) :
    done ++ (visit G.children steps seen root).2 = G.postorder done root ∧
      ∀ m, (visit G.children steps seen root).1.contains m = true ↔ m ∈ G.postorder done root := by
  cases hr : seen.contains root with
  | true =>
    rw [visit, hr, if_pos rfl, G.postorder_of_mem ((hseen root).mp hr), List.append_nil]
    exact ⟨rfl, hseen⟩
  | false =>
    have hnew : (root : Nat) ∉ done := fun hmem => by simpa [hr] using (hseen root).mpr hmem
    have hmarked : Marked done (.start G.children seen root) := by
      intro m
      simp [Walk.start, hseen]
    obtain ⟨seen', listed', hleads, hout, hmarked'⟩ :=
      G.treats root done [] _ [] (by simpa using hnew) (by simp) hmarked
    have hend := Walk.Leads.eq_iterate hleads rfl (isOver_start hsize hsteps root hr)
    rw [visit_eq_iterate hr, Walk.start, hend]
    rw [List.reverse_nil, List.append_nil] at hout
    refine ⟨hout, fun m => ?_⟩
    rw [← hout, hmarked' m]
    simp

theorem append_visitAll {done : List Nat} {seen : NumberSet}
    (hseen : ∀ m, seen.contains m = true ↔ m ∈ done) (roots : List G.nodes) :
    done ++ (visitAll G.children steps seen (roots.map (↑))).flatMap Prod.snd
      = roots.foldl G.postorder done := by
  induction roots generalizing done seen with
  | nil => exact List.append_nil done
  | cons root rest ih =>
    obtain ⟨hout, hseen'⟩ := append_visit hsize hsteps hseen root
    rw [List.map_cons, visitAll, List.flatMap_cons, ← List.append_assoc, hout, ih hseen',
      List.foldl_cons]

theorem flatMap_visitAll (roots : List G.nodes) :
    (visitAll G.children steps .empty (roots.map (↑))).flatMap Prod.snd
      = roots.foldl G.postorder [] := by
  have hempty : ∀ m, NumberSet.empty.contains m = true ↔ m ∈ ([] : List Nat) := by simp
  exact append_visitAll hsize hsteps hempty roots

end

/-- **Walks list the recursive postorder.** The walk of a root that has not been met ends, whatever has
been met. After any number of the roots, what the walks have listed is what the recursive postorder
lists for these roots one after the other. So no node is listed twice, and every node comes after its
children. -/
theorem visits_recursively (G : FiniteDag) (hsize : ∀ n ∈ G.nodes, n < size)
    (hsteps : stepBound G.children size ≤ steps) :
    (∀ (root : G.nodes) (seen : NumberSet), seen.contains root = false →
      ∃ w, (Walk.next G.children)^[steps] (.start G.children seen root) = w ∧ w.stack = [] ∧
        visit G.children steps seen root = (w.seen, w.listed.reverse)) ∧
    ∀ roots : List G.nodes,
      (∀ k, ((visitAll G.children steps .empty (roots.map (↑))).take k).flatMap Prod.snd
        = (roots.take k).foldl G.postorder []) ∧
      IsListing G.children
        ((visitAll G.children steps .empty (roots.map (↑))).flatMap Prod.snd) := by
  refine ⟨fun root seen hr => ?_, fun roots => ⟨fun k => ?_, ?_⟩⟩
  · exact ⟨_, rfl, isOver_start hsize hsteps root hr, visit_eq_iterate hr steps⟩
  · rw [take_visitAll, ← List.map_take, flatMap_visitAll hsize hsteps]
  · rw [flatMap_visitAll hsize hsteps]
    exact (extends_foldl (fun n _ _ => extends_postorder n) isListing_nil).listing

/-- A node with two children, of which the second is a child of the first. Parents have smaller numbers
than children here. -/
def sharedLeaf : FiniteDag where
  children n := if n = 0 then [1, 2] else if n = 1 then [2] else []
  nodes := {0, 1, 2}
  closed := by decide
  acyclic n _ c hc := by
    refine not_reaches_of_rank (fun n => 2 - n) (fun n c hc => ?_) hc
    split at hc
    · simp only [List.mem_cons, List.not_mem_nil, or_false] at hc
      omega
    · split at hc
      · obtain rfl := List.mem_singleton.mp hc
        omega
      · exact absurd hc List.not_mem_nil

/-- The leaf is listed before both of its parents, and nothing is left for it as a root. -/
theorem visits_recursively_sharedLeaf :
    (∀ n ∈ sharedLeaf.nodes, n < 3) ∧ stepBound sharedLeaf.children 3 = 6 ∧
      visitAll sharedLeaf.children 6 .empty [0, 2] = [(0, [2, 1, 0]), (2, [])] ∧
      [⟨0, by decide⟩, ⟨2, by decide⟩].foldl sharedLeaf.postorder [] = [2, 1, 0] ∧
      IsListing sharedLeaf.children [2, 1, 0] ∧
      ∃ w, (Walk.next sharedLeaf.children)^[6] (.start sharedLeaf.children .empty 0) = w ∧
        w.stack = [] ∧ visit sharedLeaf.children 6 .empty 0 = (w.seen, w.listed.reverse) := by
  have hsize : ∀ n ∈ sharedLeaf.nodes, n < 3 := by decide
  have hsteps : stepBound sharedLeaf.children 3 = 6 := by decide
  have hlists : visitAll sharedLeaf.children 6 .empty [0, 2] = [(0, [2, 1, 0]), (2, [])] := by
    decide
  have hvisits := visits_recursively sharedLeaf hsize hsteps.le
  obtain ⟨hrecursion, hlisting⟩ := hvisits.2 [⟨0, by decide⟩, ⟨2, by decide⟩]
  refine ⟨hsize, hsteps, hlists, ?_, ?_, hvisits.1 ⟨0, by decide⟩ .empty rfl⟩
  · rw [← List.take_length (l := [(⟨0, by decide⟩ : sharedLeaf.nodes), ⟨2, by decide⟩]),
      ← hrecursion]
    exact congrArg (fun added => (added.take 2).flatMap Prod.snd) hlists
  · have hall : (visitAll sharedLeaf.children 6 .empty [0, 2]).flatMap Prod.snd = [2, 1, 0] := by
      rw [hlists]
      rfl
    exact hall ▸ hlisting

end FiniteDag

end Postorder

/-- Programs compute nodes in the recursive postorder of their roots. -/
theorem Schedule.computes_stepsFor (G : Postorder.FiniteDag) {size : Nat}
    (hsize : ∀ n ∈ G.nodes, n < size) (roots : List G.nodes) :
    (stepsFor G.children size (roots.map (↑))).filterMap Step.computes?
      = roots.foldl G.postorder [] := by
  rw [stepsFor_eq_blocks, filterMap_computes?_blocks]
  exact Postorder.FiniteDag.flatMap_visitAll hsize (Nat.le_refl _) roots

end Fluxion
