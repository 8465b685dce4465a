/-
# A model is the replay of the calls that returned `OK`

The mutators in `src/model.cpp`, over whole runs.

Given the calls of a run and which of them returned `OK`, the model at its end is
known without looking at any of the checks: each node and each section is what the
calls that name it have made of it, one after the other, and so are the ports it
connects (`Model.Replays`).  The calls that were refused leave no trace.

One step changes each entry as `PiwcsPrw.Network.Effects` says, so the entries after a
run are the replay of these changes (`Reached.exists_replay`), and a model is
determined by its entries (`Model.Replays.unique`).
-/

import PiwcsPrw.Network.Effects
import PiwcsPrw.Runs.Consistent
import PiwcsPrw.Runs.History

namespace PiwcsPrw

/-- The calls that returned `OK`, the last one first. -/
def History.granted (history : History) : List Op :=
  history.filterMap fun (op, ok) => if ok then some op else none

/-- A call that returned `OK` is kept. -/
@[simp] theorem History.granted_cons_true (op : Op) (history : History) :
    History.granted ((op, true) :: history) = op :: history.granted := rfl

/-- A call that was refused is dropped. -/
@[simp] theorem History.granted_cons_false (op : Op) (history : History) :
    History.granted ((op, false) :: history) = history.granted := rfl

namespace History

variable (history : History)

/-- What the run has made of the node. -/
def nodeAt (n : Identifier) : Option NodeAttrs := Edit.replay n (history.granted.map Op.nodeEdit)

/-- What the run has made of the section. -/
def sectionAt (s : Identifier) : Option SectionAttrs :=
  Edit.replay s (history.granted.map Op.sectionEdit)

/-- Where the run has connected the section. -/
def endsAt (s : Identifier) : Option (Port × Port) :=
  Edit.replay s (history.granted.map Op.endsEdit)

end History

/-- The entries of the model are what the calls of the history have made of them. -/
structure Model.Replays (m : Model) (history : History) : Prop where
  node : ∀ n, (m.node n).map Node.attrs = history.nodeAt n
  node_id : ∀ n node, m.node n = some node → node.m_id = n
  «section» : ∀ s, (m.section s).map Section.attrs = history.sectionAt s
  section_id : ∀ s sec, m.section s = some sec → sec.m_id = s
  ends : ∀ s sec, m.section s = some sec →
    sec.m_start = (history.endsAt s).elim ID_NULL (fun q => q.1.1) ∧
      sec.m_end = (history.endsAt s).elim ID_NULL fun q => q.2.1
  holds : ∀ p s, s ≠ ID_NULL →
    (m.Holds p s ↔ ∃ q, history.endsAt s = some q ∧ (p = q.1 ∨ p = q.2))

/-- In every run the network is the replay of the calls that returned `OK`. -/
theorem Reached.exists_replay {history : History} {m : Model} (h : Reached history m) :
    ∃ N : Network, m.Refines N ∧ (∀ n, N.nodes n = history.nodeAt n) ∧
      (∀ s, N.sections s = history.sectionAt s) ∧ ∀ s, N.wiring.ends s = history.endsAt s := by
  induction h with
  | empty => exact ⟨.empty, .empty, fun _ => rfl, fun _ => rfl, fun _ => rfl⟩
  | call op _ hop hcall ih =>
      obtain ⟨N, hN, hnodes, hsections, hends⟩ := ih
      rcases hN.call hop.wellFormed with ⟨m₁, N₁, hcall₁, hstep, h₁⟩ | ⟨hcall₁, _⟩
      · rw [hcall₁, Except.ok.injEq, Prod.mk.injEq] at hcall
        obtain ⟨rfl, rfl⟩ := hcall
        refine ⟨N₁, h₁, fun n => ?_, fun s => ?_, fun s => ?_⟩
        · rw [hstep.nodes_eq, hnodes]
          rfl
        · rw [hstep.sections_eq, hsections]
          rfl
        · rw [hstep.ends_eq_applyAt, hends]
          rfl
      · rw [hcall₁, Except.ok.injEq, Prod.mk.injEq] at hcall
        obtain ⟨rfl, rfl⟩ := hcall
        exact ⟨N, hN, hnodes, hsections, hends⟩

/-- **At most one model is the replay of a history.** -/
theorem Model.Replays.unique {m m' : Model} {history : History} (h : m.Replays history)
    (h' : m'.Replays history) : m = m' := by
  refine Model.ext (Finmap.ext_lookup fun n => ?_) (Finmap.ext_lookup fun s => ?_)
  · change m.node n = m'.node n
    have hattrs := (h.node n).trans (h'.node n).symm
    cases hnode : m.node n with
    | none =>
        rw [hnode, Option.map_none, eq_comm, Option.map_eq_none_iff] at hattrs
        exact hattrs.symm
    | some node =>
        rw [hnode, Option.map_some, eq_comm, Option.map_eq_some_iff] at hattrs
        obtain ⟨node', hnode', heq⟩ := hattrs
        have hid : node.m_id = node'.m_id :=
          (h.node_id n node hnode).trans (h'.node_id n node' hnode').symm
        have hslot : ∀ k, node.slotAt k = node'.slotAt k := fun k =>
          Model.slotAt_eq_of_holds_iff hnode hnode' fun s hs =>
            (h.holds (n, k) s hs).trans (h'.holds (n, k) s hs).symm
        obtain ⟨htype, hdata⟩ := NodeAttrs.mk.inj heq
        rw [hnode', Node.ext_slotAt htype.symm hid hdata.symm fun k _ => hslot k]
  · change m.section s = m'.section s
    have hattrs := (h.section s).trans (h'.section s).symm
    cases hsec : m.section s with
    | none =>
        rw [hsec, Option.map_none, eq_comm, Option.map_eq_none_iff] at hattrs
        exact hattrs.symm
    | some sec =>
        rw [hsec, Option.map_some, eq_comm, Option.map_eq_some_iff] at hattrs
        obtain ⟨sec', hsec', heq⟩ := hattrs
        have hid : sec.m_id = sec'.m_id :=
          (h.section_id s sec hsec).trans (h'.section_id s sec' hsec').symm
        obtain ⟨hstart, hend⟩ := h.ends s sec hsec
        obtain ⟨hstart', hend'⟩ := h'.ends s sec' hsec'
        obtain ⟨hdir, hdest, hdata⟩ := SectionAttrs.mk.inj heq
        have hmeta : sec.m_meta = sec'.m_meta := congrArg HasMetadata.m_meta hdata.symm
        rw [hsec', Section.ext hmeta hid (hstart.trans hstart'.symm) (hend.trans hend'.symm)
          hdir.symm hdest.symm]

/-- **In every run the model is the replay of the calls that returned `OK`**, and it is
the only model that is. -/
theorem Reached.replays {history : History} {m : Model} (h : Reached history m) :
    m.Replays history ∧ ∀ m', m'.Replays history → m' = m := by
  obtain ⟨N, hN, hnodes, hsections, hends⟩ := h.exists_replay
  have hreplays : m.Replays history :=
    { node := fun n => by
        rw [hN.node, ← hnodes, Option.map_map]
        exact congrFun Option.map_id _
      node_id := fun n node hnode => by
        obtain ⟨a, _, rfl⟩ := hN.node_some hnode
        rfl
      «section» := fun s => by
        rw [hN.section, ← hsections, Option.map_map]
        exact congrFun Option.map_id _
      section_id := fun s sec hsec => by
        obtain ⟨c, _, rfl⟩ := hN.section_some hsec
        rfl
      ends := fun s sec hsec => by
        obtain ⟨c, _, rfl⟩ := hN.section_some hsec
        rw [← hends]
        exact ⟨rfl, rfl⟩
      holds := fun p s hs => by
        rw [hN.holds_iff_plug hs, N.wiring.plug_iff, hends] }
  exact ⟨hreplays, fun m' h' => h'.unique hreplays⟩

/-- The small example, with two refused calls in between. -/
theorem smallExample_replays : smallExample.Replays
    [(.link (ascii "S400") (ascii "M145") 2 (ascii "T1034") 0, true),
      (.link (ascii "S400") (ascii "M145") 3 (ascii "T1034") 0, false),
      (.addSection (.ofId (ascii "S400")), true), (.addNode (.new .THRU (ascii "T1034")), true),
      (.addNode (.new .END (ascii "M145")), false),
      (.addNode (.new .MOTORIZED (ascii "M145")), true)] := by
  refine (Reached.replays ?_).1
  refine .call _ (.call _ (.call _ (.call _ (.call _ (.call _ .empty ?_ rfl) ?_ rfl) ?_ rfl) ?_ rfl)
    ?_ rfl) ?_ rfl
  · exact Or.inl ⟨_, _, {}, rfl⟩
  · exact Or.inl ⟨_, _, {}, rfl⟩
  · exact Or.inl ⟨_, _, {}, rfl⟩
  · exact Or.inl ⟨_, _, _, {}, rfl⟩
  · exact Or.inl trivial
  · exact Or.inl trivial

end PiwcsPrw
