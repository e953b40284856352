import CommonWord.Regex.Parser
import CommonWord.Regex.Printer
import CommonWord.Nfa.Thompson
import CommonWord.Dfa.Subset
import CommonWord.Dfa.Cursor
import CommonWord.Dfa.Product
import CommonWord.Drawing
import CommonWord.Transcript
import CommonWord.Session
import CommonWord.Files.FileTree
import CommonWord.Main
import CommonWord.Word.Shortlex
import CommonWord.Regex.Language
import CommonWord.Regex.Grammar
import CommonWord.Regex.Nodes
import CommonWord.Regex.Association
import CommonWord.Nfa.Path
import CommonWord.Proofs.Nesting
import CommonWord.Proofs.Reading
import CommonWord.Proofs.Refusals
import CommonWord.Proofs.Printing
import CommonWord.Proofs.Depths
import CommonWord.Proofs.Runs
import CommonWord.Proofs.Words
import CommonWord.Proofs.Fragments
import CommonWord.Proofs.Closures
import CommonWord.Proofs.Spines
import CommonWord.Proofs.Placements
import CommonWord.Proofs.WordOrder
import CommonWord.Proofs.Explorations
import CommonWord.Proofs.Discoveries
import CommonWord.Proofs.Subsets
import CommonWord.Proofs.EmptyWord
import CommonWord.Proofs.CanonicalForms
import CommonWord.Proofs.SubsetSizes
import CommonWord.Proofs.Liveness
import CommonWord.Proofs.Products
import CommonWord.Proofs.Searches
import CommonWord.Proofs.Rearrangements
import CommonWord.Proofs.Meanings
import CommonWord.Proofs.Puzzles
import CommonWord.Proofs.Rows
import CommonWord.Proofs.Alignment
import CommonWord.Proofs.Sessions
import CommonWord.Proofs.Transcripts
import CommonWord.Proofs.Shapes
import CommonWord.Proofs.Decodings
import CommonWord.Proofs.Drawings
import CommonWord.Proofs.FileTrees
import CommonWord.Proofs.Commands
import CommonWord.Proofs.JoinedTexts
