import ChessArchive.Main
import ChessArchive.Proofs.Notation.Uci
import ChessArchive.Proofs.Import.Refinement
import ChessArchive.Proofs.Search.Answers
import ChessArchive.Proofs.Store.Rebuild
import ChessArchive.Proofs.Pgn.Stream
import ChessArchive.Proofs.Rank
import ChessArchive.Proofs.Board.Text
import ChessArchive.Proofs.Import.Reproduced
import ChessArchive.Proofs.Pattern.Grammar
import ChessArchive.Proofs.Placement.Codec
import ChessArchive.Proofs.Query.NormalForm
import ChessArchive.Proofs.Query.Statement
import ChessArchive.Proofs.Store.Keys
import ChessArchive.Proofs.Import.Counting
import ChessArchive.Proofs.Fen
import ChessArchive.Proofs.Search.Limits
import ChessArchive.Proofs.Search.Exact
import ChessArchive.Proofs.Query.Binding
import ChessArchive.Proofs.Query.Like
import ChessArchive.Proofs.Search.Headers
import ChessArchive.Proofs.Query.Tables
import ChessArchive.Proofs.Pgn.Reader
import ChessArchive.Proofs.Pgn.MainLine
import ChessArchive.Proofs.Store.Repair
import ChessArchive.Proofs.Store.Batch
import ChessArchive.Proofs.Search.Deletion
import ChessArchive.Proofs.Replayed
import ChessArchive.Proofs.Pgn.TagPairs
import ChessArchive.Proofs.Store.Coverage
import ChessArchive.Proofs.Placement.Language
import ChessArchive.Proofs.Pattern.Boards
import ChessArchive.Proofs.Search.Material
import ChessArchive.Proofs.Game.Result
import ChessArchive.Proofs.Import.Batching
import ChessArchive.Proofs.Store.KeyTable
import ChessArchive.Proofs.Search.Rendering
import ChessArchive.Proofs.Search.Evaluation
