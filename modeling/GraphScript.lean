import GraphScript.Session.Step
import GraphScript.Proofs.Trees
import GraphScript.Proofs.Moves
import GraphScript.Proofs.WellFormed
import GraphScript.Proofs.Grammar
import GraphScript.Proofs.Documents
import GraphScript.Proofs.LiveStores
import GraphScript.Session.History
import GraphScript.Proofs.Histories
import GraphScript.Proofs.Failures
import GraphScript.Proofs.Ports
import GraphScript.Proofs.Walks
import GraphScript.Proofs.Prefixes
import GraphScript.Proofs.Networks
import GraphScript.Proofs.Renderings
import GraphScript.Proofs.Reorientation
import GraphScript.Proofs.Edits
import GraphScript.Proofs.Rebuilding
import GraphScript.Network.Library
import GraphScript.Proofs.Indexing
import GraphScript.Proofs.Refusals
import GraphScript.Proofs.Libraries
import GraphScript.Proofs.Merging
import GraphScript.Proofs.Flattening
import GraphScript.Proofs.Colons
import GraphScript.Proofs.Outputs
import GraphScript.Proofs.Additions
import GraphScript.Proofs.ErrorStreams
import GraphScript.Proofs.Incidence
import GraphScript.Proofs.NodeNames
import GraphScript.Proofs.Keys
